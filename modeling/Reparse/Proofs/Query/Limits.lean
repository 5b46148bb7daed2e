import Reparse.Query.Match
import Reparse.Proofs.Query.Search
import Reparse.Proofs.Tree.Views
/-!
# Queries under a smaller limit

A search that is given up has no outcome, so a smaller limit can only lose matches. That is by construction here; a
search may as well go on with a failing step where the budget is used up. `Pattern.probe` does, with alternatives,
repetitions and rows still to be tried, and its outcomes are those of `Pattern.solve`.
-/
namespace Reparse.Query

/-! ## Searches that go on without budget -/

structure ProbeState where
  budget : Nat
  captures : List Capture
  /-- A step was tried without budget. -/
  exhausted : Bool

/-- A search in which a step without budget fails like one that does not match. -/
abbrev Probe := ProbeState → Bool × ProbeState

namespace Probe

def answer (found : Bool) : Probe := fun s => (found, s)

/-- `p` after a step that has its budget. -/
def paid (p : Probe) : Probe := fun
  | ⟨0, captures, _⟩ => (false, ⟨0, captures, true⟩)
  | ⟨budget + 1, captures, exhausted⟩ => p ⟨budget, captures, exhausted⟩

def collect (captures : List Capture) (p : Probe) : Probe := fun s => p { s with captures := s.captures ++ captures }

/-- Takes back the captures where nothing is found. -/
def retract (p : Probe) : Probe := fun s =>
  let (found, t) := p s
  if found then (true, t) else (false, { t with captures := t.captures.take s.captures.length })

def andThen (p k : Probe) : Probe := fun s =>
  let (found, t) := p s
  if found then k t else (false, t)

/-- `k` where `p` finds nothing. -/
def orElse (p k : Probe) : Probe := fun s =>
  let (found, t) := p s
  if found then (true, t) else k t

/-- `k` where `p` finds nothing, unless the budget is used up. -/
def orContinue (p k : Probe) : Probe := fun s =>
  let (found, t) := p s
  if found then (true, t) else if t.exhausted then (false, t) else k t

end Probe

open Probe

/-- How occurrences of one item are probed for. -/
structure Probing where
  quantifier : Quantifier
  field : Option FieldId
  gap : (count : Nat) → Gap
  probe : Node → Probe
  following : List Sibling → Probe

namespace Probing

def continueWith (o : Probing) (count : Nat) (siblings : List Sibling) (again : Probe) : Probe :=
  paid <| orContinue (if o.quantifier.allows count then again else answer false)
    (if o.quantifier.least ≤ count then o.following siblings else answer false)

def again (o : Probing) (count : Nat) : List Sibling → Probe
  | [] => answer false
  | (n, field) :: rest =>
    let taken :=
      if o.field.all fun wanted => field == some wanted then
        retract <| (o.probe n).andThen <| o.continueWith (count + 1) rest (again o (count + 1) rest)
      else answer false
    orContinue taken (if (o.gap count).stopsAt n then answer false else again o count rest)

def run (o : Probing) (siblings : List Sibling) : Probe := o.continueWith 0 siblings (o.again 0 siblings)

end Probing

mutual

def Step.probe : Step → Node → Probe
  | .node test items anchoredEnd absent captures, n =>
    paid <| retract <| collect (capturesAt n captures) <|
      if test.holds n && !hasFieldOf n absent then
        if items.isEmpty then answer true
        else probeRow .inner anchoredEnd items n.childrenWithFields
      else answer false
  | .oneOf branches captures, n => paid <| retract <| collect (capturesAt n captures) <| probeFirst branches n

/-- Goes through the branches until one matches, even where the budget is used up. -/
def probeFirst : List Step → Node → Probe
  | [], _ => answer false
  | s :: rest, n => (retract (s.probe n)).orElse (probeFirst rest n)

def probeRow (kind : RowKind) (anchoredEnd : Bool) : List Item → List Sibling → Probe
  | [], siblings => paid <| answer !(anchoredEnd && siblings.any (·.1.isNamed))
  | .mk step quantifier field anchored :: rest, siblings =>
    Probing.run ⟨quantifier, field, kind.gap anchored, fun n => step.probe n,
      fun siblings => probeRow kind.next anchoredEnd rest siblings⟩ siblings

end

def probeItems (items : List Item) (n : Node) : Probe :=
  match items with
  | [.mk step .one _ _] => step.probe n
  | [.mk step .optional _ _] => step.probe n
  | items => probeRow .head false items (siblingsFrom n)

/-- The captures of a match, if there is one, and whether the budget was used up. -/
def Pattern.probe (p : Pattern) (limit : Nat) (text : String) (n : Node) : Option (List Capture) × Bool :=
  let (found, s) := probeItems p.items n ⟨limit, [], false⟩
  (if found && p.predicates.all (·.holds s.captures text) then some s.captures else none, s.exhausted)

/-- The matches at one node. -/
def probesAt (q : Query) (limit : Nat) (text : String) (n : Node) : Matches :=
  let outcomes := q.patterns.zipIdx.map fun (p, i) => (p.probe limit text n, i)
  ⟨outcomes.filterMap fun (outcome, i) => outcome.1.map (⟨i, ·⟩), outcomes.any fun (outcome, _) => outcome.2⟩

/-! ## They find what a search finds that is given up -/

/-- The probe ends as the search does. Where the search is given up, it ends without budget and finds nothing. -/
structure Mirrors (p : Probe) (m : Search Bool) : Prop where
  outcome : ∀ budget captures found s, m.run ⟨budget, captures⟩ = some (found, s) →
    p ⟨budget, captures, false⟩ = (found, ⟨s.budget, s.captures, false⟩)
  exhausted : ∀ budget captures, m.run ⟨budget, captures⟩ = none →
    ∃ left, p ⟨budget, captures, false⟩ = (false, ⟨0, left, true⟩)

/-- Once the budget is used up, the probe finds nothing. -/
def Stalls (p : Probe) : Prop := ∀ captures, ∃ left, p ⟨0, captures, true⟩ = (false, ⟨0, left, true⟩)

theorem stalls_answer : Stalls (answer false) := fun captures => ⟨captures, rfl⟩

theorem stalls_paid (p : Probe) : Stalls (paid p) := fun captures => ⟨captures, rfl⟩

theorem Stalls.retract {p : Probe} (h : Stalls p) : Stalls (retract p) := by
  intro captures
  obtain ⟨left, hp⟩ := h captures
  refine ⟨left.take captures.length, ?_⟩
  simp [Probe.retract, hp]

theorem Stalls.orElse {p k : Probe} (hp : Stalls p) (hk : Stalls k) : Stalls (p.orElse k) := by
  intro captures
  obtain ⟨left, hFirst⟩ := hp captures
  obtain ⟨left', hLater⟩ := hk left
  exact ⟨left', by simp [Probe.orElse, hFirst, hLater]⟩

section Mirroring

variable {p k : Probe} {m l : Search Bool}

theorem run_attempt (m : Search Bool) (s : SearchState) : (attempt m).run s =
    (m.run s).map fun r =>
      if r.1 then (true, r.2) else (false, { r.2 with captures := r.2.captures.take s.captures.length }) := by
  simp only [attempt, StateT.run_bind, StateT.run_get, pure_bind]
  cases m.run s with
  | none => rfl
  | some r =>
    obtain ⟨b, t⟩ := r
    cases b <;> rfl

theorem run_orElse (m l : Search Bool) (s : SearchState) : (do if ← m then return true else l : Search Bool).run s =
    (m.run s).bind fun r => if r.1 then some (true, r.2) else l.run r.2 := by
  rw [StateT.run_bind]
  cases m.run s with
  | none => rfl
  | some r =>
    obtain ⟨b, t⟩ := r
    cases b <;> rfl

theorem run_andThen (m l : Search Bool) (s : SearchState) : (do if ← m then l else return false : Search Bool).run s =
    (m.run s).bind fun r => if r.1 then l.run r.2 else some (false, r.2) := by
  rw [StateT.run_bind]
  cases m.run s with
  | none => rfl
  | some r =>
    obtain ⟨b, t⟩ := r
    cases b <;> rfl

theorem mirrors_answer (found : Bool) : Mirrors (answer found) (pure found) := by
  constructor
  · intro budget captures b s hRun
    obtain ⟨rfl, rfl⟩ := Prod.mk.inj (Option.some.inj hRun)
    rfl
  · intro budget captures hRun
    cases hRun

theorem Mirrors.paid (h : Mirrors p m) : Mirrors (paid p) (do spend; m) := by
  constructor
  · intro budget captures found s hRun
    cases budget with
    | zero => cases hRun
    | succ budget => exact h.outcome budget captures found s hRun
  · intro budget captures hRun
    cases budget with
    | zero => exact ⟨captures, rfl⟩
    | succ budget => exact h.exhausted budget captures hRun

theorem Mirrors.collect (h : Mirrors p m) (added : List Capture) : Mirrors (collect added p) (do push added; m) := by
  constructor
  · intro budget captures
    exact h.outcome budget (captures ++ added)
  · intro budget captures
    exact h.exhausted budget (captures ++ added)

theorem Mirrors.retract (h : Mirrors p m) : Mirrors (retract p) (attempt m) := by
  constructor
  · intro budget captures found s hRun
    rw [run_attempt] at hRun
    obtain ⟨⟨b, t⟩, hm, hRun⟩ := Option.map_eq_some_iff.mp hRun
    have hProbe := h.outcome budget captures b t hm
    cases b <;>
    · obtain ⟨rfl, rfl⟩ := Prod.mk.inj hRun
      simp [Probe.retract, hProbe]
  · intro budget captures hRun
    rw [run_attempt] at hRun
    obtain ⟨left, hProbe⟩ := h.exhausted budget captures (Option.map_eq_none_iff.mp hRun)
    exact ⟨left.take captures.length, by simp [Probe.retract, hProbe]⟩

theorem Mirrors.guard (h : Mirrors p m) (c : Prop) [Decidable c] :
    Mirrors (if c then p else answer false) (if c then m else pure false) := by
  split
  · exact h
  · exact mirrors_answer false

theorem Mirrors.unless (h : Mirrors p m) (c : Prop) [Decidable c] :
    Mirrors (if c then answer false else p) (if c then pure false else m) := by
  split
  · exact mirrors_answer false
  · exact h

theorem Mirrors.andThen (hp : Mirrors p m) (hk : Mirrors k l) :
    Mirrors (p.andThen k) (do if ← m then l else return false) := by
  constructor
  · intro budget captures found s hRun
    rw [run_andThen] at hRun
    obtain ⟨⟨b, t⟩, hm, hRun⟩ := Option.bind_eq_some_iff.mp hRun
    have hProbe := hp.outcome budget captures b t hm
    cases b with
    | true =>
      have hRest := hk.outcome _ _ _ _ hRun
      simpa [Probe.andThen, hProbe] using hRest
    | false =>
      obtain ⟨rfl, rfl⟩ := Prod.mk.inj (Option.some.inj hRun)
      simp [Probe.andThen, hProbe]
  · intro budget captures hRun
    rw [run_andThen] at hRun
    cases hm : m.run ⟨budget, captures⟩ with
    | none =>
      obtain ⟨left, hProbe⟩ := hp.exhausted budget captures hm
      exact ⟨left, by simp [Probe.andThen, hProbe]⟩
    | some r =>
      obtain ⟨b, t⟩ := r
      rw [hm] at hRun
      have hProbe := hp.outcome budget captures b t hm
      cases b with
      | true =>
        obtain ⟨left, hRest⟩ := hk.exhausted _ _ hRun
        exact ⟨left, by simpa [Probe.andThen, hProbe] using hRest⟩
      | false => cases hRun

/-- Both ways to go on where nothing is found: the second search starts where the first one ended, or, if that was given
up, it has no outcome that it could change. -/
theorem Mirrors.or_of {both : Probe} (hp : Mirrors p m) (hk : Mirrors k l)
    (hFound : ∀ s t, p s = (true, t) → both s = (true, t))
    (hLeft : ∀ s t, p s = (false, t) → t.exhausted = false → both s = k t)
    (hSpent : ∀ s left, p s = (false, ⟨0, left, true⟩) → ∃ left', both s = (false, ⟨0, left', true⟩)) :
    Mirrors both (do if ← m then return true else l) := by
  constructor
  · intro budget captures found s hRun
    rw [run_orElse] at hRun
    obtain ⟨⟨b, t⟩, hm, hRun⟩ := Option.bind_eq_some_iff.mp hRun
    have hProbe := hp.outcome budget captures b t hm
    cases b with
    | true =>
      obtain ⟨rfl, rfl⟩ := Prod.mk.inj (Option.some.inj hRun)
      exact hFound _ _ hProbe
    | false => rw [hLeft _ _ hProbe rfl, hk.outcome _ _ _ _ hRun]
  · intro budget captures hRun
    rw [run_orElse] at hRun
    cases hm : m.run ⟨budget, captures⟩ with
    | none =>
      obtain ⟨left, hProbe⟩ := hp.exhausted budget captures hm
      exact hSpent _ left hProbe
    | some r =>
      obtain ⟨b, t⟩ := r
      rw [hm] at hRun
      have hProbe := hp.outcome budget captures b t hm
      cases b with
      | true => cases hRun
      | false =>
        rw [hLeft _ _ hProbe rfl]
        exact hk.exhausted _ _ hRun

theorem Mirrors.orElse (hp : Mirrors p m) (hk : Mirrors k l) (hStalls : Stalls k) :
    Mirrors (p.orElse k) (do if ← m then return true else l) := by
  apply hp.or_of hk
  · intro s t h
    simp [Probe.orElse, h]
  · intro s t h _
    simp [Probe.orElse, h]
  · intro s left h
    obtain ⟨left', hk⟩ := hStalls left
    exact ⟨left', by simp [Probe.orElse, h, hk]⟩

theorem Mirrors.orContinue (hp : Mirrors p m) (hk : Mirrors k l) :
    Mirrors (p.orContinue k) (do if ← m then return true else l) := by
  apply hp.or_of hk
  · intro s t h
    simp [Probe.orContinue, h]
  · intro s t h hLeft
    simp [Probe.orContinue, h, hLeft]
  · intro s left h
    exact ⟨left, by simp [Probe.orContinue, h]⟩

end Mirroring

/-- The two are about the same item and the same ones after it. -/
structure Probing.Serves (a : Probing) (o : Occurring) : Prop where
  quantifier : a.quantifier = o.quantifier
  field : a.field = o.field
  gap : a.gap = o.gap
  probe : ∀ n, Mirrors (a.probe n) (o.solve n)
  following : ∀ siblings, Mirrors (a.following siblings) (o.following siblings)

namespace Probing.Serves

variable {a : Probing} {o : Occurring}

theorem continueWith (h : a.Serves o) (count : Nat) (siblings : List Sibling) {p : Probe} {m : Search Bool}
    (hAgain : Mirrors p m) : Mirrors (a.continueWith count siblings p) (o.continueWith count siblings m) := by
  rw [Probing.continueWith, Occurring.continueWith, h.quantifier]
  exact ((hAgain.guard _).orContinue ((h.following siblings).guard _)).paid

theorem again (h : a.Serves o) (count : Nat) (siblings : List Sibling) :
    Mirrors (a.again count siblings) (o.again count siblings) := by
  induction siblings generalizing count with
  | nil => exact mirrors_answer false
  | cons c siblings ih =>
    obtain ⟨n, field⟩ := c
    rw [Probing.again, Occurring.again, h.field, h.gap]
    have hHere := (h.probe n).andThen (h.continueWith (count + 1) siblings (ih (count + 1)))
    exact (hHere.retract.guard _).orContinue ((ih count).unless _)

theorem run (h : a.Serves o) (siblings : List Sibling) : Mirrors (a.run siblings) (o.run siblings) :=
  h.continueWith 0 siblings (h.again 0 siblings)

end Probing.Serves

mutual

theorem Step.probe_mirrors : ∀ (s : Step) (n : Node), Mirrors (s.probe n) (s.solve n)
  | .node test items anchoredEnd absent captures, n => by
    rw [Step.probe, Step.solve]
    have hRow : Mirrors (if items.isEmpty then answer true else probeRow .inner anchoredEnd items n.childrenWithFields)
        (if items.isEmpty then pure true else solveRow .inner anchoredEnd items n.childrenWithFields) := by
      split
      · exact mirrors_answer true
      · exact probeRow_mirrors .inner anchoredEnd items n.childrenWithFields
    exact ((hRow.guard _).collect _).retract.paid
  | .oneOf branches captures, n => by
    rw [Step.probe, Step.solve]
    exact ((probeFirst_mirrors branches n).1.collect _).retract.paid

theorem probeFirst_mirrors : ∀ (branches : List Step) (n : Node),
    Mirrors (probeFirst branches n) (solveFirst branches n) ∧ Stalls (probeFirst branches n)
  | [], n => ⟨mirrors_answer false, stalls_answer⟩
  | s :: rest, n => by
    obtain ⟨hRest, hStalls⟩ := probeFirst_mirrors rest n
    have hHere : Stalls (s.probe n) := by
      cases s <;>
      · rw [Step.probe]
        exact stalls_paid _
    rw [probeFirst, solveFirst]
    exact ⟨(Step.probe_mirrors s n).retract.orElse hRest hStalls, hHere.retract.orElse hStalls⟩

theorem probeRow_mirrors (kind : RowKind) (anchoredEnd : Bool) : ∀ (items : List Item) (siblings : List Sibling),
    Mirrors (probeRow kind anchoredEnd items siblings) (solveRow kind anchoredEnd items siblings)
  | [], siblings => (mirrors_answer _).paid
  | .mk step quantifier field anchored :: rest, siblings => by
    rw [probeRow, solveRow]
    exact Probing.Serves.run ⟨rfl, rfl, rfl, fun n => Step.probe_mirrors step n,
      fun siblings => probeRow_mirrors kind.next anchoredEnd rest siblings⟩ siblings

end

theorem probeItems_mirrors : ∀ (items : List Item) (n : Node), Mirrors (probeItems items n) (solveItems items n)
  | [], _ => probeRow_mirrors .head false _ _
  | [.mk step quantifier _ _], n => by
    cases quantifier with
    | one => exact Step.probe_mirrors step n
    | optional => exact Step.probe_mirrors step n
    | star => exact probeRow_mirrors .head false _ _
    | plus => exact probeRow_mirrors .head false _ _
  | .mk _ quantifier _ _ :: _ :: _, _ => by
    cases quantifier <;> exact probeRow_mirrors .head false _ _

/-- A pattern's outcome where its search is given up: there is none. -/
theorem Pattern.probe_eq (p : Pattern) (limit : Nat) (text : String) (n : Node) :
    p.probe limit text n = ((p.solve limit text n).map (·, false)).getD (none, true) := by
  have hMirrors := probeItems_mirrors p.items n
  rw [Pattern.probe, Pattern.solve]
  cases hRun : (solveItems p.items n).run ⟨limit, []⟩ with
  | none =>
    obtain ⟨left, hProbe⟩ := hMirrors.exhausted limit [] hRun
    simp [hProbe]
  | some r =>
    obtain ⟨found, s⟩ := r
    have hProbe := hMirrors.outcome limit [] found s hRun
    simp [hProbe]

theorem probesAt_eq (q : Query) (limit : Nat) (text : String) (n : Node) :
    q.probesAt limit text n = q.matchesAt limit text n := by
  rw [probesAt, matchesAt]
  congr 1
  · rw [List.filterMap_map, List.filterMap_map]
    congr 1
    funext ⟨p, i⟩
    simp only [Function.comp_apply, p.probe_eq]
    cases p.solve limit text n <;> rfl
  · rw [List.any_map, List.any_map]
    congr 1
    funext ⟨p, i⟩
    simp only [Function.comp_apply, p.probe_eq]
    cases p.solve limit text n <;> rfl

/-! ## Smaller and larger limits -/

theorem solveItems_yields (items : List Item) (n : Node) :
    ∃ found added cost, Yields (solveItems items n) found added cost := by
  have hYields {m : Search Bool} {P : List Capture → Prop} (h : Decides m P) : ∃ found added cost, Yields m found added cost := by
    obtain ⟨cost, ⟨added, h, -⟩ | ⟨h, -⟩⟩ := h
    · exact ⟨true, added, cost, h⟩
    · exact ⟨false, [], cost, h⟩
  unfold solveItems
  split
  · exact hYields (Step.solve_decides _ n)
  · exact hYields (Step.solve_decides _ n)
  · exact hYields (solveRow_decides false .head _ _)

/-- A pattern has one outcome at a node, from some limit on. -/
theorem Pattern.solve_eq (p : Pattern) (text : String) (n : Node) :
    ∃ cost outcome, ∀ limit, p.solve limit text n = if cost ≤ limit then some outcome else none := by
  obtain ⟨found, added, cost, h⟩ := solveItems_yields p.items n
  refine ⟨cost, if found && p.predicates.all (·.holds added text) then some added else none, ?_⟩
  intro limit
  rw [Pattern.solve, h]
  split <;> rfl

theorem Pattern.solve_mono {p : Pattern} {a b : Nat} (h : a ≤ b) {text : String} {n : Node}
    {outcome : Option (List Capture)} (hSolve : p.solve a text n = some outcome) : p.solve b text n = some outcome := by
  obtain ⟨cost, found, hCost⟩ := p.solve_eq text n
  rw [hCost] at hSolve ⊢
  split at hSolve
  · rw [if_pos (by omega), hSolve]
  · cases hSolve

theorem sublist_filterMap {α β : Type} {f g : α → Option β} {xs : List α} (h : ∀ x ∈ xs, f x = none ∨ f x = g x) :
    (xs.filterMap f).Sublist (xs.filterMap g) := by
  induction xs with
  | nil => exact .slnil
  | cons x rest ih =>
    have hRest := ih fun y hy => h y (List.mem_cons_of_mem _ hy)
    rw [List.filterMap_cons, List.filterMap_cons]
    rcases h x List.mem_cons_self with hNone | hSame
    · rw [hNone]
      cases g x with
      | none => exact hRest
      | some y => exact hRest.cons y
    · rw [hSame]
      cases g x with
      | none => exact hRest
      | some y => exact hRest.cons_cons y

theorem sublist_flatMap {α β : Type} {f g : α → List β} {xs : List α} (h : ∀ x ∈ xs, (f x).Sublist (g x)) :
    (xs.flatMap f).Sublist (xs.flatMap g) := by
  induction xs with
  | nil => exact .slnil
  | cons x rest ih =>
    rw [List.flatMap_cons, List.flatMap_cons]
    exact (h x List.mem_cons_self).append (ih fun y hy => h y (List.mem_cons_of_mem _ hy))

section Limits

variable (q : Query) {a b : Nat} (hab : a ≤ b) (text : String) (n : Node)
include hab

theorem matchesAt_sublist : (q.matchesAt a text n).list.Sublist (q.matchesAt b text n).list := by
  rw [matchesAt, matchesAt]
  dsimp only
  rw [List.filterMap_map, List.filterMap_map]
  apply sublist_filterMap
  intro ⟨p, i⟩ _
  simp only [Function.comp_apply]
  cases hSolve : p.solve a text n with
  | none => exact .inl rfl
  | some outcome =>
    rw [Pattern.solve_mono hab hSolve]
    exact .inr rfl

theorem matchesAt_eq (h : (q.matchesAt a text n).exceeded = false) : q.matchesAt b text n = q.matchesAt a text n := by
  have hSolved : ∀ p i, (p, i) ∈ q.patterns.zipIdx → p.solve b text n = p.solve a text n := by
    intro p i hp
    simp only [matchesAt, List.any_map, List.any_eq_false, Function.comp_apply] at h
    have hSome := h (p, i) hp
    cases hSolve : p.solve a text n with
    | none => simp [hSolve] at hSome
    | some outcome => exact Pattern.solve_mono hab hSolve
  rw [matchesAt, matchesAt]
  have hOutcomes : (q.patterns.zipIdx.map fun (p, i) => (p.solve b text n, i)) =
      q.patterns.zipIdx.map fun (p, i) => (p.solve a text n, i) := by
    apply List.map_congr_left
    intro (p, i) hp
    exact congrArg (·, i) (hSolved p i hp)
  rw [hOutcomes]

/-- A smaller limit only loses matches, those of the searches that it ends. A search that fails where its budget is used
up and goes on with what else there is to try has the same matches, none of them after that. -/
theorem matches_limited (ranges : List TextRange) :
    (q.matchesIn ⟨ranges, a⟩ n text).list.Sublist (q.matchesIn ⟨ranges, b⟩ n text).list ∧
    ((q.matchesIn ⟨ranges, a⟩ n text).exceeded = false →
      (q.matchesIn ⟨ranges, a⟩ n text).list = (q.matchesIn ⟨ranges, b⟩ n text).list ∧
        (q.matchesIn ⟨ranges, b⟩ n text).exceeded = false) ∧
    ∀ limit m, q.matchesAt limit text m = q.probesAt limit text m ∧
      ∀ p ∈ q.patterns, (p.probe limit text m).2 = true → (p.probe limit text m).1 = none := by
  refine ⟨?_, ?_, ?_⟩
  · rw [matchesIn, matchesIn]
    split
    · dsimp only
      rw [List.flatMap_map, List.flatMap_map]
      apply sublist_flatMap
      intro c _
      exact q.matchesAt_sublist hab text c.node
    · exact .slnil
  · intro hExceeded
    rw [matchesIn] at hExceeded
    rw [matchesIn, matchesIn]
    split
    · rename_i hFits
      rw [if_pos hFits] at hExceeded
      have hSame : ((Preorder.all n ranges).map fun c => q.matchesAt b text c.node) =
          (Preorder.all n ranges).map fun c => q.matchesAt a text c.node := by
        apply List.map_congr_left
        intro c hc
        apply q.matchesAt_eq hab
        simp only [List.any_map, List.any_eq_false, Function.comp_apply, Bool.not_eq_true] at hExceeded
        exact hExceeded c hc
      dsimp only at hExceeded ⊢
      rw [hSame]
      exact ⟨rfl, hExceeded⟩
    · exact ⟨rfl, rfl⟩
  · intro limit m
    constructor
    · exact (q.probesAt_eq limit text m).symm
    · intro p _ hSpent
      rw [p.probe_eq] at hSpent ⊢
      cases hSolve : p.solve limit text m with
      | none => rfl
      | some outcome =>
        rw [hSolve] at hSpent
        cases hSpent

end Limits

/-- The matches over a whole walk. -/
theorem matchesIn_walk {q : Query} {n : Node} (hFits : q.fits n.tree.language = true) (limit : Nat) (text : String) :
    q.matchesIn ⟨[], limit⟩ n text = ⟨n.walk.flatMap fun m => (q.matchesAt limit text m).list,
      n.walk.any fun m => (q.matchesAt limit text m).exceeded⟩ := by
  rw [matchesIn, if_pos hFits, Node.walk]
  simp only [List.flatMap_map, List.any_map]
  rfl

/-- Two steps are enough for a node of the first pattern, but not for the second branch of the second pattern. -/
theorem spaced_limited : ∃ (t : Tree) (q : Query), t.Obtained ∧ compile .spaced "(s) @all [(blank) (s)] @either" = .ok q ∧
    (q.matchesIn ⟨[], 2⟩ t.rootNode "aa").list.Sublist (q.matchesIn ⟨[], 3⟩ t.rootNode "aa").list ∧
    (q.matchesIn ⟨[], 2⟩ t.rootNode "aa").list.length = 3 ∧ (q.matchesIn ⟨[], 3⟩ t.rootNode "aa").list.length = 6 ∧
    (q.matchesIn ⟨[], 9⟩ t.rootNode "aa").exceeded = false := by
  have hRuns : ((Parser.spaced.parse 40 (Parser.plainHost "aa".toUTF8) () none 0).bind fun parsed =>
      (compile .spaced "(s) @all [(blank) (s)] @either").toOption.map fun q =>
        let nodes := parsed.tree.rootNode :: parsed.tree.rootNode.below
        (q.fits parsed.tree.language, (nodes.flatMap fun m => (q.matchesAt 2 "aa" m).list).length,
          (nodes.flatMap fun m => (q.matchesAt 3 "aa" m).list).length,
          nodes.any fun m => (q.matchesAt 3 "aa" m).exceeded)) = some (true, 3, 6, false) := by decide +kernel
  obtain ⟨parsed, hParsed, hRuns⟩ := Option.bind_eq_some_iff.mp hRuns
  obtain ⟨q, hq, hCounts⟩ := Option.map_eq_some_iff.mp hRuns
  obtain ⟨hFits, hCounts⟩ := Prod.mk.inj hCounts
  obtain ⟨hFew, hCounts⟩ := Prod.mk.inj hCounts
  obtain ⟨hAll, hEnough⟩ := Prod.mk.inj hCounts
  have hCompile : compile .spaced "(s) @all [(blank) (s)] @either" = .ok q := by
    cases h : compile .spaced "(s) @all [(blank) (s)] @either" with
    | error => simp [h, Except.toOption] at hq
    | ok => simpa [h, Except.toOption] using hq
  have hObtained : parsed.tree.Obtained := .parsed (by simp) (by simp) hParsed
  have hWalk := (Node.take_walk (n := parsed.tree.rootNode) hObtained.counted).1
  have hSublist := (matches_limited q (by decide : 2 ≤ 3) "aa" parsed.tree.rootNode []).1
  have hSame := (matches_limited q (by decide : 3 ≤ 9) "aa" parsed.tree.rootNode []).2.1
  refine ⟨parsed.tree, q, hObtained, hCompile, hSublist, ?_, ?_, (hSame ?_).2⟩
  · rw [matchesIn_walk hFits, hWalk]
    exact hFew
  · rw [matchesIn_walk hFits, hWalk]
    exact hAll
  · rw [matchesIn_walk hFits, hWalk]
    exact hEnough

end Reparse.Query
