import Reparse.Query.Compile
import Reparse.Proofs.Parse.Productions
import Reparse.Proofs.Query.Occurrences
/-!
# Search finds what is there

Every search has one outcome and one cost, whatever is captured before: it is given up exactly where the
budget is smaller than the cost, and it finds something exactly where there are occurrences. A search that
finds nothing leaves the captures as they were.
-/
namespace Reparse.Query

variable {α β : Type}

/-- With a budget of `cost` or more a search gives `a` and captures `added`, with less it is given up. -/
def Yields (m : Search α) (a : α) (added : List Capture) (cost : Nat) : Prop :=
  ∀ budget captures, m.run ⟨budget, captures⟩ =
    if cost ≤ budget then some (a, ⟨budget - cost, captures ++ added⟩) else none

namespace Yields

theorem pure (a : α) : Yields (Pure.pure a : Search α) a [] 0 := by
  intro budget captures
  simp

theorem spend : Yields spend () [] 1 := by
  intro budget captures
  cases budget <;> simp [Query.spend, StateT.run]

theorem push (added : List Capture) : Yields (push added) () added 0 := by
  intro budget captures
  simp [Query.push]

theorem run_eq_none {m : Search α} {a : α} {added : List Capture} {cost : Nat} (h : Yields m a added cost)
    (s : SearchState) : m.run s = none ↔ s.budget < cost := by
  have hrun := h s.budget s.captures
  by_cases hcost : cost ≤ s.budget
  · rw [if_pos hcost] at hrun
    simp [hrun, Nat.not_lt.mpr hcost]
  · rw [if_neg hcost] at hrun
    simp [hrun, Nat.lt_of_not_le hcost]

theorem run_eq_some {m : Search α} {a b : α} {added : List Capture} {cost : Nat}
    (h : Yields m a added cost) {s s' : SearchState} (hrun : m.run s = some (b, s')) :
    b = a ∧ s'.captures = s.captures ++ added := by
  have heq := (h s.budget s.captures).symm.trans hrun
  split at heq
  · cases heq
    exact ⟨rfl, rfl⟩
  · cases heq

theorem bind {m : Search α} {k : α → Search β} {a : α} {b : β} {first second : List Capture}
    {cost rest : Nat} (hm : Yields m a first cost) (hk : Yields (k a) b second rest) :
    Yields (m >>= k) b (first ++ second) (cost + rest) := by
  intro budget captures
  rw [StateT.run_bind, hm]
  by_cases hcost : cost ≤ budget
  · simp only [hcost, if_true, Option.bind_eq_bind, Option.bind_some]
    rw [hk]
    by_cases hrest : cost + rest ≤ budget
    · rw [if_pos (by omega), if_pos hrest, List.append_assoc, Nat.sub_sub]
    · rw [if_neg (by omega), if_neg hrest]
  · rw [if_neg hcost, if_neg (by omega)]
    rfl

theorem attempt {m : Search Bool} {found : Bool} {added : List Capture} {cost : Nat}
    (h : Yields m found added cost) :
    Yields (attempt m) found (if found then added else []) cost := by
  intro budget captures
  simp only [Query.attempt, StateT.run_bind, StateT.run_get, pure_bind, h budget captures]
  by_cases hcost : cost ≤ budget
  · cases found <;> simp [hcost, truncate]
  · simp [hcost]

end Yields

/-- A search whose outcome is whether there are captures with `P`, and that captures such ones. Where it
finds nothing it may leave captures behind. -/
def Settles (m : Search Bool) (P : List Capture → Prop) : Prop :=
  ∃ added cost, (Yields m true added cost ∧ P added) ∨ (Yields m false added cost ∧ ∀ all, ¬ P all)

/-- A search that settles `P` and leaves nothing behind where it finds nothing. -/
def Decides (m : Search Bool) (P : List Capture → Prop) : Prop :=
  ∃ cost, (∃ added, Yields m true added cost ∧ P added) ∨ (Yields m false [] cost ∧ ∀ all, ¬ P all)

section Combined

variable {m k : Search Bool} {P Q : List Capture → Prop}

theorem Decides.settles (h : Decides m P) : Settles m P := by
  obtain ⟨cost, ⟨added, h⟩ | h⟩ := h
  · exact ⟨added, cost, .inl h⟩
  · exact ⟨[], cost, .inr h⟩

theorem Settles.attempt (h : Settles m P) : Decides (attempt m) P := by
  obtain ⟨added, cost, ⟨hm, hP⟩ | ⟨hm, hP⟩⟩ := h
  · exact ⟨cost, .inl ⟨added, hm.attempt, hP⟩⟩
  · exact ⟨cost, .inr ⟨hm.attempt, hP⟩⟩

theorem Decides.congr (h : Decides m P) (hiff : ∀ captures, P captures ↔ Q captures) : Decides m Q := by
  rwa [show Q = P from funext fun captures => propext (hiff captures).symm]

theorem Decides.spend (h : Decides m P) : Decides (do spend; m) P := by
  obtain ⟨cost, ⟨added, hm, hP⟩ | ⟨hm, hP⟩⟩ := h
  · exact ⟨1 + cost, .inl ⟨added, Yields.spend.bind hm, hP⟩⟩
  · exact ⟨1 + cost, .inr ⟨Yields.spend.bind hm, hP⟩⟩

theorem decides_pure (found : Bool) : Decides (pure found) fun captures => found = true ∧ captures = [] := by
  cases found with
  | true => exact ⟨0, .inl ⟨[], .pure true, rfl, rfl⟩⟩
  | false => exact ⟨0, .inr ⟨.pure false, by simp⟩⟩

theorem Decides.guard (h : Decides m P) (c : Prop) [Decidable c] :
    Decides (if c then m else pure false) fun captures => c ∧ P captures := by
  by_cases hc : c
  · simpa [hc] using h
  · exact ⟨0, .inr (by simpa [hc] using Yields.pure false)⟩

theorem Decides.unless (h : Decides m P) (c : Prop) [Decidable c] :
    Decides (if c then pure false else m) fun captures => ¬c ∧ P captures := by
  by_cases hc : c
  · exact ⟨0, .inr (by simpa [hc] using Yields.pure false)⟩
  · simpa [hc] using h

/-- One search, and the other where it finds nothing. -/
theorem Decides.orElse (hm : Decides m P) (hk : Decides k Q) :
    Decides (do if ← m then return true else k) fun captures => P captures ∨ Q captures := by
  obtain ⟨cost, ⟨added, hm, hP⟩ | ⟨hm, hP⟩⟩ := hm
  · exact ⟨cost + 0, .inl ⟨added ++ [], hm.bind (Yields.pure true), by simpa using .inl hP⟩⟩
  · obtain ⟨rest, ⟨added, hk, hQ⟩ | ⟨hk, hQ⟩⟩ := hk
    · exact ⟨cost + rest, .inl ⟨added, hm.bind hk, .inr hQ⟩⟩
    · exact ⟨cost + rest, .inr ⟨hm.bind hk, fun all => not_or.mpr ⟨hP all, hQ all⟩⟩⟩

/-- One search and the other after it. What the first one captures is left behind where the second one finds
nothing. -/
theorem Decides.andThen (hm : Decides m P) (hk : Decides k Q) :
    Settles (do if ← m then k else return false) fun captures =>
      ∃ here more, P here ∧ Q more ∧ captures = here ++ more := by
  obtain ⟨cost, ⟨here, hm, hP⟩ | ⟨hm, hP⟩⟩ := hm
  · obtain ⟨rest, ⟨more, hk, hQ⟩ | ⟨hk, hQ⟩⟩ := hk
    · exact ⟨_, _, .inl ⟨hm.bind hk, here, more, hP, hQ, rfl⟩⟩
    · exact ⟨_, _, .inr ⟨hm.bind hk, fun _ ⟨_, more, _, hmore, _⟩ => hQ more hmore⟩⟩
  · exact ⟨_, _, .inr ⟨hm.bind (Yields.pure false), fun _ ⟨here, _, hhere, _⟩ => hP here hhere⟩⟩

theorem Decides.push (h : Decides m P) (first : List Capture) :
    Settles (do push first; m) fun captures => ∃ more, P more ∧ captures = first ++ more := by
  obtain ⟨cost, ⟨added, hm, hP⟩ | ⟨hm, hP⟩⟩ := h
  · exact ⟨_, _, .inl ⟨(Yields.push first).bind hm, added, hP, rfl⟩⟩
  · exact ⟨_, _, .inr ⟨(Yields.push first).bind hm, fun _ ⟨more, hmore, _⟩ => hP more hmore⟩⟩

end Combined

/-! ## Rows and steps -/

section Rows

variable {anchoredEnd : Bool} {kind : RowKind} {count : Nat} {item : Item} {rest : List Item}
  {siblings : List Sibling}

/-- One more occurrence of the first item is found, and the rest of the row after it. -/
def Took (anchoredEnd : Bool) (kind : RowKind) (count : Nat) (item : Item) (rest : List Item)
    (siblings : List Sibling) (captures : List Capture) : Prop :=
  ∃ skipped n field after here more, siblings = skipped ++ (n, field) :: after ∧
    (kind.gap item.anchored count).Spans skipped ∧ (∀ wanted ∈ item.field, field = some wanted) ∧
    item.step.Matches n here ∧ Fills anchoredEnd kind (count + 1) (item :: rest) after more ∧
    captures = here ++ more

theorem fills_cons_iff {captures : List Capture} :
    Fills anchoredEnd kind count (item :: rest) siblings captures ↔
      (item.quantifier.allows count ∧ Took anchoredEnd kind count item rest siblings captures) ∨
      (item.quantifier.least ≤ count ∧ Fills anchoredEnd kind.next 0 rest siblings captures) := by
  constructor
  · intro h
    cases h with
    | next enough more => exact .inr ⟨enough, more⟩
    | take allowed gap fits found next =>
      exact .inl ⟨allowed, _, _, _, _, _, _, rfl, gap, fits, found, next, rfl⟩
  · rintro (⟨allowed, _, _, _, _, _, _, rfl, gap, fits, found, next, rfl⟩ | ⟨enough, more⟩)
    · exact .take allowed gap fits found next
    · exact .next enough more

theorem took_cons_iff {n : Node} {field : Option FieldId} {captures : List Capture} :
    Took anchoredEnd kind count item rest ((n, field) :: siblings) captures ↔
      ((∀ wanted ∈ item.field, field = some wanted) ∧ ∃ here more, item.step.Matches n here ∧
        Fills anchoredEnd kind (count + 1) (item :: rest) siblings more ∧ captures = here ++ more) ∨
      ((kind.gap item.anchored count).stopsAt n = false ∧
        Took anchoredEnd kind count item rest siblings captures) := by
  constructor
  · rintro ⟨skipped, m, f, after, here, more, heq, gap, fits, found, next, rfl⟩
    cases skipped with
    | nil =>
      cases heq
      exact .inl ⟨fits, here, more, found, next, rfl⟩
    | cons c skipped =>
      cases heq
      exact .inr ⟨gap _ List.mem_cons_self, skipped, m, f, after, here, more, rfl,
        fun s hs => gap s (List.mem_cons_of_mem _ hs), fits, found, next, rfl⟩
  · rintro (⟨fits, here, more, found, next, rfl⟩ |
      ⟨gap, skipped, m, f, after, here, more, rfl, gaps, fits, found, next, rfl⟩)
    · exact ⟨[], n, field, siblings, here, more, rfl, by simp [Gap.Spans], fits, found, next, rfl⟩
    · exact ⟨(n, field) :: skipped, m, f, after, here, more, rfl, List.forall_mem_cons.mpr ⟨gap, gaps⟩,
        fits, found, next, rfl⟩

/-- The row's search is built for the item and the ones after it. -/
structure Occurring.Serves (o : Occurring) (anchoredEnd : Bool) (kind : RowKind) (item : Item)
    (rest : List Item) : Prop where
  quantifier : o.quantifier = item.quantifier
  field : o.field = item.field
  gap : o.gap = kind.gap item.anchored
  solve : ∀ n, Decides (o.solve n) (item.step.Matches n)
  following : ∀ siblings, Decides (o.following siblings) (Fills anchoredEnd kind.next 0 rest siblings)

namespace Occurring.Serves

variable {o : Occurring}

theorem continueWith (h : o.Serves anchoredEnd kind item rest) {again : Search Bool}
    (ha : Decides again (Took anchoredEnd kind count item rest siblings)) :
    Decides (o.continueWith count siblings again) (Fills anchoredEnd kind count (item :: rest) siblings) := by
  have hmore := ha.guard (o.quantifier.allows count = true)
  have hrest := (h.following siblings).guard (o.quantifier.least ≤ count)
  refine (hmore.orElse hrest).spend.congr fun captures => ?_
  rw [h.quantifier]
  exact fills_cons_iff.symm

theorem again (h : o.Serves anchoredEnd kind item rest) :
    Decides (o.again count siblings) (Took anchoredEnd kind count item rest siblings) := by
  induction siblings generalizing count with
  | nil => exact (decides_pure false).congr fun captures => by simp [Took]
  | cons c siblings ih =>
    obtain ⟨n, field⟩ := c
    have hmore := h.continueWith (@ih (count + 1))
    have hhere := ((h.solve n).andThen hmore).attempt.guard
      ((o.field.all fun wanted => field == some wanted) = true)
    have hlater := (@ih count).unless ((o.gap count).stopsAt n = true)
    rw [Occurring.again]
    refine (hhere.orElse hlater).congr fun captures => ?_
    rw [took_cons_iff, h.field, h.gap]
    simp [Option.all_eq_true]

theorem run (h : o.Serves anchoredEnd kind item rest) :
    Decides (o.run siblings) (Fills anchoredEnd kind 0 (item :: rest) siblings) :=
  h.continueWith h.again

end Occurring.Serves

theorem hasFieldOf_eq_false {n : Node} {absent : List FieldId} :
    hasFieldOf n absent = false ↔ ∀ c ∈ n.childrenWithFields, ∀ field ∈ c.2, field ∉ absent := by
  cases absent with
  | nil => simp [hasFieldOf]
  | cons first rest =>
    simp only [hasFieldOf, List.isEmpty_cons, Bool.not_false, Bool.true_and, List.any_eq_false,
      Option.any_eq_true, List.contains_iff_mem, not_exists, not_and, Option.mem_def]

mutual

theorem Step.solve_decides : ∀ (s : Step) (n : Node), Decides (s.solve n) (s.Matches n)
  | .node test items anchoredEnd absent captures, n => by
    have hrow : Decides (if items.isEmpty then pure true
        else solveRow .inner anchoredEnd items n.childrenWithFields) fun more =>
          (items = [] ∧ more = []) ∨
            (items ≠ [] ∧ Assigned false anchoredEnd items n.childrenWithFields more) := by
      cases hitems : items with
      | nil => exact (decides_pure true).congr fun more => by simp
      | cons item rest =>
        rw [← hitems]
        have h := solveRow_decides anchoredEnd .inner items n.childrenWithFields
        simpa [hitems] using h.congr fun more => fills_iff false (by simp) more
    have h := (hrow.guard (test.holds n && !hasFieldOf n absent)).push (capturesAt n captures)
    rw [Step.solve]
    refine h.attempt.spend.congr fun all => ?_
    simp only [Bool.and_eq_true, Bool.not_eq_true', hasFieldOf_eq_false]
    constructor
    · rintro ⟨more, ⟨⟨passes, absents⟩, ⟨rfl, rfl⟩ | ⟨nonempty, os, placed, each, rfl⟩⟩, rfl⟩
      · rw [List.append_nil]
        exact .leaf passes absents
      · exact .node passes absents nonempty placed each
    · intro h
      cases h with
      | leaf passes absents =>
        exact ⟨[], ⟨⟨passes, absents⟩, .inl ⟨rfl, rfl⟩⟩, (List.append_nil _).symm⟩
      | node passes absents nonempty placed each =>
        exact ⟨_, ⟨⟨passes, absents⟩, .inr ⟨nonempty, _, placed, each, rfl⟩⟩, rfl⟩
  | .oneOf branches captures, n => by
    have h := ((solveFirst_decides branches n).push (capturesAt n captures)).attempt.spend
    rw [Step.solve]
    refine h.congr fun all => ⟨?_, ?_⟩
    · rintro ⟨more, ⟨s, hs, below⟩, rfl⟩
      exact .branch hs below
    · rintro ⟨⟩
      exact ⟨_, ⟨_, ‹_›, ‹_›⟩, rfl⟩

theorem solveFirst_decides : ∀ (branches : List Step) (n : Node),
    Decides (solveFirst branches n) fun captures => ∃ s ∈ branches, s.Matches n captures
  | [], n => (decides_pure false).congr fun captures => by simp
  | s :: rest, n => by
    have h := (Step.solve_decides s n).settles.attempt.orElse (solveFirst_decides rest n)
    rw [solveFirst]
    exact h.congr fun captures => by simp

theorem solveRow_decides (anchoredEnd : Bool) : ∀ (kind : RowKind) (items : List Item)
    (siblings : List Sibling),
    Decides (solveRow kind anchoredEnd items siblings) (Fills anchoredEnd kind 0 items siblings)
  | kind, [], siblings => by
    rw [solveRow]
    refine (decides_pure _).spend.congr fun captures => ⟨?_, ?_⟩
    · rintro ⟨hend, rfl⟩
      exact .done fun h => by simpa [h] using hend
    · rintro (⟨last⟩ | _)
      cases hend : anchoredEnd with
      | true => simpa [hend] using last
      | false => simp
  | kind, .mk step quantifier field anchored :: rest, siblings => by
    rw [solveRow]
    exact Occurring.Serves.run ⟨rfl, rfl, rfl, fun n => Step.solve_decides step n,
      fun siblings => solveRow_decides anchoredEnd kind.next rest siblings⟩

end

end Rows

/-! ## Compiled patterns -/

section Compiled

variable {l : Language} {d d' : Draft}

theorem run_bind_ok {x : Compile α} {f : α → Compile β} {b : β} (h : (x >>= f).run d = .ok (b, d')) :
    ∃ a e, x.run d = .ok (a, e) ∧ (f a).run e = .ok (b, d') := by
  rw [StateT.run_bind] at h
  cases hx : x.run d with
  | error => simp [hx, Bind.bind, Except.bind] at h
  | ok r => exact ⟨r.1, r.2, rfl, by simpa [hx, Bind.bind, Except.bind] using h⟩

theorem run_pure_ok {a b : α} (h : (pure a : Compile α).run d = .ok (b, d')) : b = a := by
  cases h
  rfl

theorem asHead_least (items : List Item) :
    ∀ item ∈ (items.head?.toList.map Item.asHead ++ items.tail).head?, 1 ≤ item.quantifier.least := by
  cases items with
  | nil => simp
  | cons first rest =>
    obtain ⟨step, quantifier, field, anchored⟩ := first
    cases quantifier <;> simp [Item.asHead, Item.quantifier, Quantifier.atLeastOnce, Quantifier.least]

/-- The first item of a compiled pattern has to occur. -/
theorem topPattern_head {start : Nat} {children : List SyntaxTree} {p : Pattern}
    (h : (topPattern l start children).run d = .ok (p, d')) :
    ∀ item ∈ p.items.head?, 1 ≤ item.quantifier.least := by
  obtain ⟨_, _, -, h⟩ := run_bind_ok h
  obtain ⟨items, _, -, h⟩ := run_bind_ok h
  obtain ⟨_, _, -, h⟩ := run_bind_ok h
  obtain ⟨_, _, -, h⟩ := run_bind_ok h
  rw [run_pure_ok h]
  exact asHead_least items

theorem patternsOf_head {children : List SyntaxTree} {ps : List Pattern}
    (h : (patternsOf l children).run d = .ok (ps, d')) :
    ∀ p ∈ ps, ∀ item ∈ p.items.head?, 1 ≤ item.quantifier.least := by
  induction children generalizing d d' ps with
  | nil =>
    obtain rfl := run_pure_ok h
    simp
  | cons s rest ih =>
    unfold patternsOf at h
    split at h
    · obtain ⟨p, _, hp, h⟩ := run_bind_ok h
      obtain ⟨more, _, hmore, h⟩ := run_bind_ok h
      obtain rfl := run_pure_ok h
      exact List.forall_mem_cons.mpr ⟨topPattern_head hp, ih hmore⟩
    · cases h
    · exact ih h

theorem compile_head {source : String} {q : Query} (h : compile l source = .ok q) :
    ∀ p ∈ q.patterns, ∀ item ∈ p.items.head?, 1 ≤ item.quantifier.least := by
  unfold compile at h
  obtain ⟨tree, faults⟩ := SyntaxTree.ofSource source
  dsimp only at h
  split at h
  · cases h
  next children _ _ =>
    cases hrun : (patternsOf l children).run {} with
    | error => simp [hrun, Bind.bind, Except.bind] at h
    | ok r =>
      obtain ⟨ps, draft⟩ := r
      simp only [hrun, Bind.bind, Except.bind, Pure.pure, Except.pure, Except.ok.injEq] at h
      subst h
      exact patternsOf_head hrun
  · cases h
    simp

end Compiled

/-- What a search finds are the captures with `P`. It is given up exactly if the budget is smaller than some
cost; if not, it finds something exactly if there are such captures, adds some of them to those at hand, and
leaves these as they are if it finds nothing. -/
structure Search.Finds (m : Search Bool) (P : List Capture → Prop) : Prop where
  enough : ∃ cost, ∀ s, m.run s = none ↔ s.budget < cost
  exact : ∀ s found s', m.run s = some (found, s') → (found = true ↔ ∃ added, P added)
  added : ∀ s s', m.run s = some (true, s') → ∃ added, P added ∧ s'.captures = s.captures ++ added
  kept : ∀ s s', m.run s = some (false, s') → s'.captures = s.captures

theorem Decides.finds {m : Search Bool} {P : List Capture → Prop} (h : Decides m P) : m.Finds P := by
  obtain ⟨cost, ⟨added, hm, hP⟩ | ⟨hm, hP⟩⟩ := h
  · refine ⟨⟨cost, hm.run_eq_none⟩, fun s found s' h => ?_, fun s s' h => ?_, fun s s' h => ?_⟩ <;>
      obtain ⟨hfound, hadded⟩ := hm.run_eq_some h
    · exact ⟨fun _ => ⟨added, hP⟩, fun _ => hfound⟩
    · exact ⟨added, hP, hadded⟩
    · cases hfound
  · refine ⟨⟨cost, hm.run_eq_none⟩, fun s found s' h => ?_, fun s s' h => ?_, fun s s' h => ?_⟩ <;>
      obtain ⟨hfound, hadded⟩ := hm.run_eq_some h
    · simp [hfound, hP]
    · cases hfound
    · simpa using hadded

/-- Steps and rows of items find exactly the occurrences that there are: a row below a node anywhere among
its children, and that of a pattern at the top from any sibling on. -/
theorem search_finds {l : Language} {source : String} {q : Query} (h : compile l source = .ok q)
    {p : Pattern} (hp : p ∈ q.patterns) :
    (∀ (s : Step) (n : Node), (s.solve n).Finds (s.Matches n)) ∧
    (∀ anchoredEnd items siblings, (solveRow .inner anchoredEnd items siblings).Finds
      (Assigned false anchoredEnd items siblings)) ∧
    (∀ anchoredEnd siblings, (solveRow .head anchoredEnd p.items siblings).Finds
      (Assigned true anchoredEnd p.items siblings)) := by
  refine ⟨fun s n => (s.solve_decides n).finds, fun anchoredEnd items siblings => ?_,
    fun anchoredEnd siblings => ?_⟩
  · exact ((solveRow_decides anchoredEnd .inner items siblings).congr
      (fills_iff false (by simp))).finds
  · exact ((solveRow_decides anchoredEnd .head p.items siblings).congr
      (fills_iff true fun _ => compile_head h p hp)).finds

/-- A leaf of each of the symbols, side by side. -/
def siblingLeaves (symbols : List Symbol) : List Sibling :=
  symbols.map fun s =>
    let c : Subtree := .leaf .spaced 0 s 1 0 0 0 none
    (⟨⟨c, .spaced, .complete⟩, c, 0⟩, none)

/-- A group is found among siblings of which the second one is passed over. -/
theorem search_finds_group : ∃ (q : Query) (p : Pattern) (captures : List Capture),
    compile .spaced "((s) @first (blank)+ @more)" = .ok q ∧ p ∈ q.patterns ∧
      Assigned true false p.items (siblingLeaves [⟨3⟩, ⟨2⟩, ⟨1⟩]) captures := by
  have hRuns : (((compile .spaced "((s) @first (blank)+ @more)").toOption.bind (·.patterns.head?)).bind
      fun p => ((solveRow .head false p.items (siblingLeaves [⟨3⟩, ⟨2⟩, ⟨1⟩])).run ⟨100, []⟩).map (·.1)) =
      some true := by decide +kernel
  obtain ⟨p, hp, hRun⟩ := Option.bind_eq_some_iff.mp hRuns
  obtain ⟨q, hq, hp⟩ := Option.bind_eq_some_iff.mp hp
  obtain ⟨⟨_, s⟩, hRun, rfl⟩ := Option.map_eq_some_iff.mp hRun
  have hCompile : compile .spaced "((s) @first (blank)+ @more)" = .ok q := by
    cases h : compile .spaced "((s) @first (blank)+ @more)" with
    | error => simp [h, Except.toOption] at hq
    | ok => simpa [h, Except.toOption] using hq
  have hMem : p ∈ q.patterns := List.mem_of_mem_head? hp
  obtain ⟨captures, h⟩ := (((search_finds hCompile hMem).2.2 false _).exact _ _ _ hRun).mp rfl
  exact ⟨q, p, captures, hCompile, hMem, h⟩

end Reparse.Query
