import Reparse.Proofs.Query.Single
import Reparse.Query.Match
/-!
# Predicates over captures without nodes

A capture in an optional item, or in a branch that was not taken, has no nodes in a solution. A predicate asks something of
all nodes of its first capture, so it holds if that one has none. Of the predicates whose second capture has none, those
that ask for a difference do not hold: all nodes of the second capture are equal to any text, and this is what is negated.
-/
namespace Reparse

namespace Query

variable {captures : List Capture} {text : String} {index : Nat} {p : Predicate}

/-- The capture has a node. -/
def Bound (captures : List Capture) (index : Nat) : Prop := ∃ c ∈ captures, c.index = index

/-- The captures that a predicate mentions. -/
def Predicate.mentioned : Predicate → List Nat
  | equal capture (.capture other) _ => [capture, other]
  | equal capture (.text _) _ => [capture]
  | occurs capture _ _ => [capture]

namespace Predicate

theorem texts_eq_nil_iff : holds.texts captures text index = [] ↔ ¬Bound captures index := by
  simp [holds.texts, Bound]

theorem texts_eq_nil (h : ¬Bound captures index) : holds.texts captures text index = [] := texts_eq_nil_iff.mpr h

theorem holds_equal_of_unbound {value : Operand} {negated : Bool} (h : ¬Bound captures index) :
    (equal index value negated).holds captures text = true := by
  rw [holds, texts_eq_nil h, List.all_nil]

theorem holds_occurs_of_unbound {regex : Regex Regex.Atom} {negated : Bool} (h : ¬Bound captures index) :
    (occurs index regex negated).holds captures text = true := by
  rw [holds, texts_eq_nil h, List.all_nil]

/-- All nodes of a second capture that has none are equal to any text. -/
theorem holds_equal_unbound {first : Nat} {negated : Bool} (h : ¬Bound captures index) :
    (equal first (.capture index) negated).holds captures text = false ↔ negated = true ∧ Bound captures first := by
  have hAll : (equal first (.capture index) negated).holds captures text =
      (holds.texts captures text first).all fun _ => true != negated := by
    rw [holds]
    simp only [texts_eq_nil h, List.all_nil]
  rw [hAll]
  cases negated with
  | false => simp
  | true =>
    cases hTexts : holds.texts captures text first with
    | nil => simpa using texts_eq_nil_iff.mp hTexts
    | cons t rest =>
      have hFirst : Bound captures first := by
        by_contra hNot
        rw [texts_eq_nil hNot] at hTexts
        cases hTexts
      simpa using hFirst

/-- A predicate that mentions a capture without nodes holds, unless it asks that nodes of another one differ from it. -/
theorem holds_eq_false_iff (hMentioned : index ∈ p.mentioned) (hUnbound : ¬Bound captures index) :
    p.holds captures text = false ↔ ∃ first, p = .equal first (.capture index) true ∧ Bound captures first := by
  have hHolds (h : p.holds captures text = true)
      (hNot : ∀ first, p = .equal first (.capture index) true → ¬Bound captures first) :
      p.holds captures text = false ↔ ∃ first, p = .equal first (.capture index) true ∧ Bound captures first := by
    rw [h]
    simpa using hNot
  cases p with
  | occurs capture regex negated =>
    obtain rfl : index = capture := List.mem_singleton.mp hMentioned
    exact hHolds (holds_occurs_of_unbound hUnbound) fun first h => by cases h
  | equal capture value negated =>
    cases value with
    | text s =>
      obtain rfl : index = capture := List.mem_singleton.mp hMentioned
      exact hHolds (holds_equal_of_unbound hUnbound) fun first h => by cases h
    | capture other =>
      by_cases hSecond : index = other
      · subst hSecond
        rw [holds_equal_unbound hUnbound]
        constructor
        · rintro ⟨rfl, hFirst⟩
          exact ⟨capture, rfl, hFirst⟩
        · rintro ⟨first, hSame, hFirst⟩
          cases hSame
          exact ⟨rfl, hFirst⟩
      · obtain rfl : index = capture := (List.mem_pair.mp hMentioned).resolve_right hSecond
        refine hHolds (holds_equal_of_unbound hUnbound) fun first h => ?_
        cases h
        exact absurd rfl hSecond

end Predicate

/-- What the search finds is a match exactly if the predicates hold whose captures all have nodes, and no capture with
nodes is to differ from one without. -/
theorem Pattern.solve_eq_some_iff {p : Pattern} {limit : Nat} {n : Node} {s : SearchState}
    (hFound : (solveItems p.items n).run ⟨limit, []⟩ = some (true, s)) :
    p.solve limit text n = some (some s.captures) ↔
      (∀ q ∈ p.predicates, (∀ i ∈ q.mentioned, Bound s.captures i) → q.holds s.captures text = true) ∧
      ∀ first other, Predicate.equal first (.capture other) true ∈ p.predicates → Bound s.captures first →
        Bound s.captures other := by
  have hSolve : p.solve limit text n = some (some s.captures) ↔ ∀ q ∈ p.predicates, q.holds s.captures text = true := by
    rw [Pattern.solve, hFound]
    simp
  rw [hSolve]
  constructor
  · intro hAll
    refine ⟨fun q hq _ => hAll q hq, fun first other hq hFirst => ?_⟩
    by_contra hOther
    have hNot : (Predicate.equal first (.capture other) true).holds s.captures text = false :=
      (Predicate.holds_equal_unbound hOther).mpr ⟨rfl, hFirst⟩
    exact Bool.false_ne_true (hNot.symm.trans (hAll _ hq))
  · rintro ⟨hBound, hDiffer⟩ q hq
    by_cases hMentioned : ∀ i ∈ q.mentioned, Bound s.captures i
    · exact hBound q hq hMentioned
    · -- Only a difference fails of a capture without nodes, and those are ruled out.
      obtain ⟨index, hRest⟩ := not_forall.mp hMentioned
      obtain ⟨hIndex, hUnbound⟩ := Classical.not_imp.mp hRest
      refine Bool.not_eq_false _ ▸ fun hNot => ?_
      obtain ⟨first, rfl, hFirst⟩ := (Predicate.holds_eq_false_iff hIndex hUnbound).mp hNot
      exact hUnbound (hDiffer first index hq hFirst)

/-- Whether the texts of the first capture are to differ from those of the second. -/
def Predicate.differs (first second : Nat) : Predicate → Bool
  | equal capture (.capture other) negated => capture == first && other == second && negated
  | _ => false

theorem Predicate.differs_iff {first second : Nat} :
    p.differs first second = true ↔ p = .equal first (.capture second) true := by
  cases p with
  | equal capture value negated => cases value <;> simp [differs, and_assoc]
  | occurs => simp [differs]

/-- A root taken by one branch is no match, though the other branch has no node that it could be equal to. -/
theorem difference_unbound_suppressed : ∃ (q : Query) (p : Pattern) (n : Node) (s : SearchState),
    compile .sided "([(s) @a (blank) @b] (#not-eq? @a @b))" = .ok q ∧ p ∈ q.patterns ∧
    .equal 0 (.capture 1) true ∈ p.predicates ∧ (solveItems p.items n).run ⟨9, []⟩ = some (true, s) ∧
    ¬Bound s.captures 1 ∧ p.solve 9 "a" n = some none := by
  let root : Subtree := .leaf .sided 0 ⟨3⟩ 1 0 0 0 none
  let n : Node := ⟨⟨root, .sided, .complete⟩, root, 0⟩
  have hRuns : ((compile .sided "([(s) @a (blank) @b] (#not-eq? @a @b))").toOption.bind (·.patterns.head?)).map (fun p =>
      (p.predicates.any (·.differs 0 1),
        ((solveItems p.items n).run ⟨9, []⟩).map fun outcome => (outcome.1, outcome.2.captures.map (·.index)))) =
      some (true, some (true, [0])) := by
    decide +kernel
  obtain ⟨p, hp, hRuns⟩ := Option.map_eq_some_iff.mp hRuns
  obtain ⟨hDiffers, hFinds⟩ := Prod.mk.inj hRuns
  obtain ⟨⟨found, s⟩, hFound, hCaptures⟩ := Option.map_eq_some_iff.mp hFinds
  obtain ⟨rfl, hIndices⟩ := Prod.mk.inj hCaptures
  obtain ⟨d, hMem, hDiffers⟩ := List.any_eq_true.mp hDiffers
  obtain rfl := Predicate.differs_iff.mp hDiffers
  have hBound (index : Nat) : Bound s.captures index ↔ index = 0 := by
    rw [Bound, ← List.mem_singleton, ← hIndices, List.mem_map]
  have hOther : ¬Bound s.captures 1 := fun h => by cases (hBound 1).mp h
  have hFails : (Predicate.equal 0 (.capture 1) true).holds s.captures "a" = false :=
    (Predicate.holds_equal_unbound hOther).mpr ⟨rfl, (hBound 0).mpr rfl⟩
  obtain ⟨q, hq, hp⟩ := Option.bind_eq_some_iff.mp hp
  refine ⟨q, p, n, s, ?_, List.mem_of_mem_head? hp, hMem, hFound, hOther, ?_⟩
  · cases h : compile .sided "([(s) @a (blank) @b] (#not-eq? @a @b))" with
    | error => simp [h, Except.toOption] at hq
    | ok => simpa [h, Except.toOption] using hq
  · have hSome : ¬(true && p.predicates.all (·.holds s.captures "a")) = true := fun hAll =>
      Bool.false_ne_true (hFails.symm.trans (List.all_eq_true.mp hAll _ hMem))
    rw [Pattern.solve, hFound]
    exact congrArg some (if_neg hSome)

end Query
end Reparse
