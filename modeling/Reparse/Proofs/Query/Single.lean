import Reparse.Proofs.Query.Search
/-!
# Patterns of one step

A pattern that is one item, to occur once, is tried as its step at the node. Compared with the search along the node's
siblings this leaves out what the item says about the node's place: the gaps before and after it do not matter for a
single item, but its field does. A group may hold such an item, and its field is then ignored.
-/
namespace Reparse

/-- `Language.spaced` with the name of a field that no production uses. -/
def Language.sided : Language :=
  { Language.spaced with table := { Table.spaced with fields := #["left"] } }

namespace Query

section Combined

variable {m k : Search Bool} {found : Bool} {first second : List Capture} {cost rest : Nat}

theorem yields_paid (h : Yields m found first cost) : Yields (do spend; m) found first (1 + cost) :=
  Yields.spend.bind (k := fun _ => m) h

theorem yields_found (h : Yields m true first cost) :
    Yields (do if ← m then return true else k) true first cost := by
  have hBoth := h.bind (k := fun found => if found = true then pure true else k) (.pure true)
  rwa [List.append_nil] at hBoth

theorem yields_missed (h : Yields m false [] cost) (hk : Yields k found second rest) :
    Yields (do if ← m then return true else k) found second (cost + rest) :=
  h.bind (k := fun found => if found = true then pure true else k) hk

theorem yields_then (h : Yields m true first cost) (hk : Yields k found second rest) :
    Yields (do if ← m then k else return false) found (first ++ second) (cost + rest) :=
  h.bind (k := fun found => if found = true then k else pure false) hk

theorem yields_not_then (h : Yields m false first cost) :
    Yields (do if ← m then k else return false) false first cost := by
  have hBoth := h.bind (k := fun found => if found = true then k else pure false) (.pure false)
  rwa [List.append_nil] at hBoth

theorem yields_if_pos {c : Prop} [Decidable c] (hc : c) (h : Yields m found first cost) :
    Yields (if c then m else k) found first cost := by
  rwa [if_pos hc]

theorem yields_if_neg {c : Prop} [Decidable c] (hc : ¬c) (h : Yields k found first cost) :
    Yields (if c then m else k) found first cost := by
  rwa [if_neg hc]

end Combined

variable (step : Step) {field : Option FieldId} (anchored : Bool) (n : Node) {place : Option FieldId}
  (rest : List Sibling)

/-- What the search along the siblings does for an item that occurs once. -/
def lone (step : Step) (field : Option FieldId) (anchored : Bool) : Occurring where
  quantifier := .one
  field := field
  gap := RowKind.head.gap anchored
  solve n := step.solve n
  following siblings := solveRow RowKind.head.next false [] siblings

theorem solveRow_lone (siblings : List Sibling) :
    solveRow .head false [.mk step .one field anchored] siblings = (lone step field anchored).run siblings := by
  rw [solveRow]
  rfl

/-- After its occurrence the item is done, whatever follows. -/
theorem lone_after (field : Option FieldId) (siblings : List Sibling) (again : Search Bool) :
    Yields ((lone step field anchored).continueWith 1 siblings again) true [] 2 := by
  have hDone : Yields (solveRow RowKind.head.next false [] siblings) true [] 1 := by
    rw [solveRow]
    exact yields_paid (.pure true)
  have hNoMore : Yields (if Quantifier.one.allows 1 then again else pure false) false [] 0 := .pure false
  exact yields_paid (yields_missed hNoMore (yields_if_pos (Nat.le_refl 1) hDone))

section Taken

variable {step n} {found : Bool} {added : List Capture} {cost : Nat}

/-- The search along the siblings stops at the node itself. It takes the node if the step matches and the field is the
one that the node fills. -/
theorem lone_again (h : Yields (step.solve n) found added cost) (hLeft : found = false → added = [])
    (hPlace : ∀ wanted ∈ field, place = some wanted) :
    ∃ cost', Yields ((lone step field anchored).again 0 ((n, place) :: rest)) found added cost' := by
  have hTakes : (lone step field anchored).field.all (fun wanted => place == some wanted) = true := by
    simpa [Option.all_eq_true, lone] using hPlace
  have hStops : ((lone step field anchored).gap 0).stopsAt n = true := rfl
  have hSolve : Yields ((lone step field anchored).solve n) found added cost := h
  have hAfter := lone_after step anchored field rest ((lone step field anchored).again 1 rest)
  rw [Occurring.again]
  cases found with
  | true =>
    have hHere := (yields_then hSolve hAfter).attempt
    rw [if_pos rfl, List.append_nil] at hHere
    exact ⟨_, yields_found (yields_if_pos hTakes hHere)⟩
  | false =>
    obtain rfl := hLeft rfl
    have hHere := (yields_not_then hSolve
      (k := (lone step field anchored).continueWith 1 rest ((lone step field anchored).again 1 rest))).attempt
    exact ⟨_, yields_missed (yields_if_pos hTakes hHere) (yields_if_pos hStops (.pure false))⟩

variable (step n) in
theorem lone_elsewhere (hPlace : ¬∀ wanted ∈ field, place = some wanted) :
    Yields ((lone step field anchored).again 0 ((n, place) :: rest)) false [] 0 := by
  have hNot : ¬(lone step field anchored).field.all (fun wanted => place == some wanted) = true := by
    simpa [Option.all_eq_true, lone] using hPlace
  have hStops : ((lone step field anchored).gap 0).stopsAt n = true := rfl
  rw [Occurring.again]
  exact yields_missed (yields_if_neg hNot (.pure false)) (yields_if_pos hStops (.pure false))

theorem lone_run {siblings : List Sibling}
    (h : Yields ((lone step field anchored).again 0 siblings) found added cost) (hLeft : found = false → added = []) :
    ∃ cost', Yields ((lone step field anchored).run siblings) found added cost' := by
  have hFirst : Yields (if (lone step field anchored).quantifier.allows 0
      then (lone step field anchored).again 0 siblings else pure false) found added cost := yields_if_pos rfl h
  have hNot : ¬(lone step field anchored).quantifier.least ≤ 0 := Nat.not_succ_le_zero 0
  rw [Occurring.run, Occurring.continueWith]
  cases found with
  | true => exact ⟨_, yields_paid (yields_found hFirst)⟩
  | false =>
    obtain rfl := hLeft rfl
    exact ⟨_, yields_paid (yields_missed hFirst (yields_if_neg hNot (.pure false)))⟩

end Taken

/-- The one item of a compiled pattern occurs once if it may not occur again. -/
theorem quantifier_of_single {l : Language} {source : String} {q : Query} (h : compile l source = .ok q) {p : Pattern}
    (hp : p ∈ q.patterns) {item : Item} (hItems : p.items = [item]) (hOnce : item.quantifier.allows 1 = false) :
    item.quantifier = .one := by
  have hLeast := compile_head h p hp item (by rw [hItems]; rfl)
  cases hQuantifier : item.quantifier with
  | one => rfl
  | optional => rw [hQuantifier] at hLeast; cases hLeast
  | star => rw [hQuantifier] at hOnce; cases hOnce
  | plus => rw [hQuantifier] at hOnce; cases hOnce

/-- Where neither is given up, the search along the siblings from the node on finds what the step finds at the node if
the node fills the field that the item names, and nothing if it does not. -/
theorem single_finds {n : Node} {rest : List Sibling} {l : Language} {source : String} {q : Query}
    (h : compile l source = .ok q) {p : Pattern} (hp : p ∈ q.patterns) {item : Item} (hItems : p.items = [item])
    (hOnce : item.quantifier.allows 1 = false) (hHere : siblingsFrom n = (n, place) :: rest) {s t u : SearchState}
    {fast general : Bool} (hFast : (solveItems p.items n).run s = some (fast, t))
    (hGeneral : (solveRow .head false p.items (siblingsFrom n)).run s = some (general, u)) :
    (general = true ↔ fast = true ∧ ∀ wanted ∈ item.field, place = some wanted) ∧
      (general = fast → u.captures = t.captures) := by
  obtain ⟨step, quantifier, field, anchored⟩ := item
  obtain rfl : quantifier = .one := quantifier_of_single h hp hItems hOnce
  rw [hItems] at hFast hGeneral
  rw [hHere, solveRow_lone] at hGeneral
  obtain ⟨found, added, cost, hSolve, hLeft⟩ : ∃ found added cost, Yields (step.solve n) found added cost ∧
      (found = false → added = []) := by
    obtain ⟨cost, ⟨added, h, -⟩ | ⟨h, -⟩⟩ := Step.solve_decides step n
    · exact ⟨true, added, cost, h, fun hNot => absurd hNot.symm Bool.false_ne_true⟩
    · exact ⟨false, [], cost, h, fun _ => rfl⟩
  obtain ⟨rfl, hCaptures⟩ := hSolve.run_eq_some hFast
  by_cases hPlace : ∀ wanted ∈ field, place = some wanted
  · obtain ⟨_, hAgain⟩ := lone_again anchored rest hSolve hLeft hPlace
    obtain ⟨_, hRun⟩ := lone_run anchored hAgain hLeft
    obtain ⟨rfl, hCaptures'⟩ := hRun.run_eq_some hGeneral
    exact ⟨⟨fun hFound => ⟨hFound, hPlace⟩, fun hBoth => hBoth.1⟩, fun _ => hCaptures'.trans hCaptures.symm⟩
  · obtain ⟨_, hRun⟩ := lone_run anchored (lone_elsewhere step anchored n rest hPlace) fun _ => rfl
    obtain ⟨rfl, hCaptures'⟩ := hRun.run_eq_some hGeneral
    constructor
    · exact ⟨fun hNot => absurd hNot Bool.false_ne_true, fun hBoth => absurd hBoth.2 hPlace⟩
    · intro hSame
      rw [hCaptures', hCaptures, hLeft hSame.symm]

/-- The field of a lone item in a group counts for nothing: the pattern matches a root, which fills no field, and the
search along the siblings does not. -/
theorem single_field_ignored : ∃ (q : Query) (p : Pattern) (n : Node),
    compile .sided "((#eq? @a @a) left: (s) @a)" = .ok q ∧ p ∈ q.patterns ∧ n.parent? = none ∧
    ((solveItems p.items n).run ⟨9, []⟩).map (·.1) = some true ∧
    ((solveRow .head false p.items (siblingsFrom n)).run ⟨9, []⟩).map (·.1) = some false := by
  let root : Subtree := .leaf .sided 0 ⟨3⟩ 1 0 0 0 none
  let n : Node := ⟨⟨root, .sided, .complete⟩, root, 0⟩
  have hRuns : ((compile .sided "((#eq? @a @a) left: (s) @a)").toOption.bind (·.patterns.head?)).map (fun p =>
      (((solveItems p.items n).run ⟨9, []⟩).map (·.1),
        ((solveRow .head false p.items (siblingsFrom n)).run ⟨9, []⟩).map (·.1))) = some (some true, some false) := by
    decide +kernel
  obtain ⟨p, hp, hRuns⟩ := Option.map_eq_some_iff.mp hRuns
  obtain ⟨hFast, hGeneral⟩ := Prod.mk.inj hRuns
  obtain ⟨q, hq, hp⟩ := Option.bind_eq_some_iff.mp hp
  refine ⟨q, p, n, ?_, List.mem_of_mem_head? hp, rfl, hFast, hGeneral⟩
  cases h : compile .sided "((#eq? @a @a) left: (s) @a)" with
  | error => simp [h, Except.toOption] at hq
  | ok => simpa [h, Except.toOption] using hq

end Query
end Reparse
