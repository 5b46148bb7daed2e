import Reparse.Proofs.Grammar.Recognition
import Mathlib
/-!
# The terminals that begin and follow a symbol are least

The sets that the passes come to are no larger than they have to be. What `begins` holds of a symbol is
what can be derived from it, and nothing else; and of all families of sets that keep what the productions
ask of followers, `follow` is the least. Both hold of every grammar that can be lowered, whether or not
its table is a valid one.
-/
namespace Reparse

namespace TerminalSet

variable {terminal : Nat}

theorem has_zero (i : Nat) : has 0 i = false := Nat.zero_testBit i

theorem has_single_iff {i j : Nat} : (single i).has j = true ↔ i = j := by
  rw [has, single, Nat.one_shiftLeft, Nat.testBit_two_pow, decide_eq_true_iff]

theorem has_of_modify {sets : Array TerminalSet} {i j : Nat} {set : TerminalSet}
    (h : has (((sets.modify j (·.union set))[i]?).getD 0) terminal = true) :
    has ((sets[i]?).getD 0) terminal = true ∨ j = i ∧ set.has terminal = true := by
  rw [Array.getElem?_modify] at h
  split at h
  next hEq =>
    cases hAt : sets[i]? with
    | none => simp [hAt, has_zero] at h
    | some old =>
      rw [hAt, Option.map_some, Option.getD_some, has_union, Bool.or_eq_true] at h
      exact h.imp_right fun hSet => ⟨hEq, hSet⟩
  next => exact .inl h

theorem has_of_mapIdx {g : LoweredGrammar} {f : Nat → TerminalSet} {i : Nat}
    (h : has (((g.symbols.mapIdx fun i _ => f i)[i]?).getD 0) terminal = true) :
    (f i).has terminal = true := by
  rw [Array.getElem?_mapIdx] at h
  cases hAt : g.symbols[i]? with
  | none => simp [hAt, has_zero] at h
  | some info => simpa [hAt] using h

end TerminalSet

namespace Grammar

variable {g : Grammar} {a b : List Symbol} {s : Symbol}

theorem Produces.derives {lhs : Symbol} {rhs : List Symbol} (h : g.Produces lhs rhs) : g.Derives [lhs] rhs := by
  have := Rewrites.rule [] [] h
  exact .single (by simpa using this)

/-- Some sentential form of the symbols begins with `s`. -/
def BeginsWith (g : Grammar) (symbols : List Symbol) (s : Symbol) : Prop := ∃ rest, g.Derives symbols (s :: rest)

theorem BeginsWith.append (h : g.BeginsWith a s) (c : List Symbol) : g.BeginsWith (a ++ c) s := by
  obtain ⟨rest, hRest⟩ := h
  exact ⟨rest ++ c, hRest.append_right c⟩

theorem BeginsWith.of_derives (h : g.Derives a b) (hb : g.BeginsWith b s) : g.BeginsWith a s := by
  obtain ⟨rest, hRest⟩ := hb
  exact ⟨rest, h.trans hRest⟩

end Grammar

namespace LoweredGrammar

variable {g : Grammar} {l : LoweredGrammar} {b : Begins} {before after symbols : List Symbol} {s : Symbol}
  {terminal : Nat}

/-! ## Sequences -/

theorem ofSeq_append_nullable : (b.ofSeq (before ++ after)).2 = ((b.ofSeq before).2 && (b.ofSeq after).2) := by
  induction before with
  | nil => rfl
  | cons s rest ih =>
    rw [List.cons_append, Begins.ofSeq, Begins.ofSeq]
    split
    · exact ih
    · rfl

theorem ofSeq_append_has : (b.ofSeq (before ++ after)).1.has terminal =
    ((b.ofSeq before).1.has terminal || ((b.ofSeq before).2 && (b.ofSeq after).1.has terminal)) := by
  induction before with
  | nil => simp [Begins.ofSeq, TerminalSet.has_zero]
  | cons s rest ih =>
    rw [List.cons_append, Begins.ofSeq, Begins.ofSeq]
    split
    · simp only [TerminalSet.has_union, ih, Bool.or_assoc]
    · simp

theorem ofSeq_singleton_nullable : (b.ofSeq [s]).2 = b.isNullable s := by
  rw [Begins.ofSeq]
  split
  next h => exact h.symm
  next h => simpa using h

theorem ofSeq_singleton_has : (b.ofSeq [s]).1.has terminal = (b.firstOf s).has terminal := by
  rw [Begins.ofSeq]
  split
  · simp [Begins.ofSeq, TerminalSet.has_union, TerminalSet.has_zero]
  · rfl

/-! ## What is derived is in the sets -/

section Complete

variable (hLowers : g.Lowers l) (hb : l.BeginsClosed b)
include hLowers hb

/-- One replacement does not lose what a sequence begins with. -/
theorem ofSeq_of_rewrites {a c : List Symbol} (h : g.Rewrites a c) :
    ((b.ofSeq c).2 = true → (b.ofSeq a).2 = true) ∧
      ∀ terminal, (b.ofSeq c).1.has terminal = true → (b.ofSeq a).1.has terminal = true := by
  obtain ⟨before, after, hRule⟩ := h
  obtain ⟨p, hp, rfl, rfl⟩ := hLowers.produces_iff.mp hRule
  have hNullable : (b.ofSeq p.rhs).2 = true → (b.ofSeq [p.lhs]).2 = true := by
    rw [ofSeq_singleton_nullable]
    exact hb.nullable_lhs p hp
  have hFirst (terminal : Nat) : (b.ofSeq p.rhs).1.has terminal = true → (b.ofSeq [p.lhs]).1.has terminal = true := by
    rw [ofSeq_singleton_has]
    exact hb.first_lhs p hp terminal
  have hSplit : before ++ p.lhs :: after = before ++ [p.lhs] ++ after := by simp
  rw [hSplit]
  simp only [ofSeq_append_nullable, ofSeq_append_has, Bool.or_eq_true, Bool.and_eq_true]
  grind

theorem ofSeq_nullable_of_derives (h : g.Derives symbols []) : (b.ofSeq symbols).2 = true :=
  Relation.ReflTransGen.head_induction_on h rfl fun hStep _ ih =>
    (ofSeq_of_rewrites hLowers hb hStep).1 ih

theorem ofSeq_has_of_beginsWith (hs : l.isTerminal s = true) (h : g.BeginsWith symbols s) :
    (b.ofSeq symbols).1.has s.index = true := by
  obtain ⟨rest, hRest⟩ := h
  exact Relation.ReflTransGen.head_induction_on hRest (ofSeq_cons_has (.inl (hb.terminal s hs)))
    fun hStep _ ih => (ofSeq_of_rewrites hLowers hb hStep).2 _ ih

end Complete

/-! ## What is in the sets is derived -/

/-- Every entry of the beginnings is the result of a derivation. -/
structure BeginsSound (g : Grammar) (b : Begins) : Prop where
  nullable : ∀ s, b.isNullable s = true → g.Derives [s] []
  first : ∀ s t, (b.firstOf s).has (Symbol.index t) = true → g.BeginsWith [s] t

theorem BeginsSound.ofSeq_nullable (h : BeginsSound g b) (hSeq : (b.ofSeq symbols).2 = true) :
    g.Derives symbols [] := by
  induction symbols with
  | nil => exact .refl
  | cons s rest ih =>
    rw [Begins.ofSeq] at hSeq
    split at hSeq
    next hs => exact ((h.nullable s hs).append_right rest).trans (ih hSeq)
    next => cases hSeq

theorem BeginsSound.ofSeq_has (h : BeginsSound g b) (hSeq : (b.ofSeq symbols).1.has s.index = true) :
    g.BeginsWith symbols s := by
  induction symbols with
  | nil => simp [Begins.ofSeq, TerminalSet.has_zero] at hSeq
  | cons x rest ih =>
    rw [Begins.ofSeq] at hSeq
    split at hSeq
    next hx =>
      rw [TerminalSet.has_union, Bool.or_eq_true] at hSeq
      rcases hSeq with hSeq | hSeq
      · exact (h.first x s hSeq).append rest
      · exact .of_derives ((h.nullable x hx).append_right rest) (ih hSeq)
    next => exact (h.first x s hSeq).append rest

theorem beginsSound_initial : BeginsSound g l.initialBegins := by
  refine ⟨fun s hs => ?_, fun s t ht => ?_⟩
  · simp only [Begins.isNullable, initialBegins, Array.getElem?_map] at hs
    cases hAt : l.symbols[s.index]? <;> simp [hAt] at hs
  · have hSet := TerminalSet.has_of_mapIdx ht
    split at hSet
    · exact ⟨[], Symbol.index_inj.mp (TerminalSet.has_single_iff.mp hSet) ▸ .refl⟩
    · simp [TerminalSet.has_zero] at hSet

theorem BeginsSound.addProduction (h : BeginsSound g b) {p : LoweredProduction} (hp : g.Produces p.lhs p.rhs) :
    BeginsSound g (b.addProduction p) := by
  refine ⟨fun s hs => ?_, fun s t ht => ?_⟩
  · simp only [Begins.isNullable, Begins.addProduction, Array.getElem?_modify] at hs
    split at hs
    next hIndex =>
      obtain rfl := Symbol.index_inj.mp hIndex
      cases hAt : b.nullable[p.lhs.index]? with
      | none => simp [hAt] at hs
      | some old =>
        rw [hAt, Option.map_some, Option.getD_some, Bool.or_eq_true] at hs
        rcases hs with hOld | hNew
        · exact h.nullable _ (by rw [Begins.isNullable, hAt, hOld]; rfl)
        · exact hp.derives.trans (h.ofSeq_nullable hNew)
    next => exact h.nullable s hs
  · rcases TerminalSet.has_of_modify ht with hOld | ⟨hIndex, hNew⟩
    · exact h.first s t hOld
    · obtain rfl := Symbol.index_inj.mp hIndex
      exact .of_derives hp.derives (h.ofSeq_has hNew)

theorem begins_sound (hLowers : g.Lowers l) : BeginsSound g l.begins := by
  have hPass (b : Begins) (h : BeginsSound g b) : BeginsSound g (l.beginsPass b) := by
    rw [beginsPass, ← Array.foldl_toList]
    refine List.foldlRecOn (motive := BeginsSound g) _ _ h fun b h p hp => ?_
    exact h.addProduction (hLowers.produces_iff.mpr ⟨p, by simpa using hp, rfl, rfl⟩)
  rw [begins_eq_settle]
  exact settle_induction _ hPass beginsSound_initial

theorem BeginsFit.terminal_of_ofSeq_has (h : l.BeginsFit b) (hHas : (b.ofSeq symbols).1.has s.index = true) :
    l.isTerminal s = true := by
  by_contra hNot
  rw [isTerminal_iff] at hNot
  have hLt := Nat.lt_of_lt_of_le (h.ofSeq_lt symbols) (Nat.pow_le_pow_right Nat.two_pos (Nat.not_lt.mp hNot))
  rw [TerminalSet.has, Nat.testBit_lt_two_pow hLt] at hHas
  cases hHas

section Exact

variable (hLowers : g.Lowers l)
include hLowers

theorem ofSeq_begins_nullable_iff : (l.begins.ofSeq symbols).2 = true ↔ g.Derives symbols [] :=
  ⟨(begins_sound hLowers).ofSeq_nullable, ofSeq_nullable_of_derives hLowers (begins_closed hLowers.inRange)⟩

theorem ofSeq_begins_has_iff :
    (l.begins.ofSeq symbols).1.has s.index = true ↔ l.isTerminal s = true ∧ g.BeginsWith symbols s := by
  have hClosed := begins_closed hLowers.inRange
  constructor
  · exact fun h => ⟨hClosed.toBeginsFit.terminal_of_ofSeq_has h, (begins_sound hLowers).ofSeq_has h⟩
  · exact fun ⟨hs, h⟩ => ofSeq_has_of_beginsWith hLowers hClosed hs h

end Exact

/-! ## Followers -/

/-- What is asked of the terminals that follow each symbol: the end of the input follows the start symbol, and
in a right-hand side `before A after` of `B` what begins `after` follows the nonterminal `A`, and where `after` may be
empty, what follows `B`. -/
structure Follows (g : Grammar) (l : LoweredGrammar) (F : Symbol → Set Symbol) : Prop where
  start : Symbol.eof ∈ F l.start
  begin : ∀ {B A : Symbol} {before after : List Symbol}, g.Produces B (before ++ A :: after) →
    l.isTerminal A = false → ∀ t, l.isTerminal t = true → g.BeginsWith after t → t ∈ F A
  empty : ∀ {B A : Symbol} {before after : List Symbol}, g.Produces B (before ++ A :: after) →
    l.isTerminal A = false → g.Derives after [] → F B ⊆ F A

/-- The sets of followers as sets of symbols. -/
def followers (follow : Follow) (s : Symbol) : Set Symbol := {t | (followOf follow s).has t.index = true}

theorem followers_follows (hLowers : g.Lowers l) : Follows g l (followers l.follow) := by
  have hClosed := follow_closed hLowers.inRange
  refine ⟨hClosed.start, fun hRule hA t ht hAfter => ?_, fun hRule hA hAfter t ht => ?_⟩
  all_goals obtain ⟨p, hp, rfl, hRhs⟩ := hLowers.produces_iff.mp hRule
  · exact hClosed.rhs p hp _ _ _ hRhs hA _ (.inl ((ofSeq_begins_has_iff hLowers).mpr ⟨ht, hAfter⟩))
  · exact hClosed.rhs p hp _ _ _ hRhs hA _ (.inr ⟨(ofSeq_begins_nullable_iff hLowers).mpr hAfter, ht⟩)

section Least

variable (hLowers : g.Lowers l) {F : Symbol → Set Symbol} (hF : Follows g l F)
include hLowers hF

theorem followers_addFollow_le {lhs : Symbol} {before rhs : List Symbol} {follow : Follow}
    (hRule : g.Produces lhs (before ++ rhs)) (h : followers follow ≤ F) :
    followers (l.addFollow l.begins lhs rhs follow) ≤ F := by
  induction rhs generalizing before follow with
  | nil => exact h
  | cons s rest ih =>
    rw [addFollow_cons]
    have hRest : g.Produces lhs (before ++ [s] ++ rest) := by simpa using hRule
    refine ih hRest ?_
    split
    · exact h
    next hTerm =>
      rw [Bool.not_eq_true] at hTerm
      intro x t ht
      rcases TerminalSet.has_of_modify ht with hOld | ⟨hIndex, hNew⟩
      · exact h x hOld
      obtain rfl := Symbol.index_inj.mp hIndex
      have hBegin (hHas : (l.begins.ofSeq rest).1.has t.index = true) : t ∈ F s := by
        obtain ⟨hTerminal, hBegins⟩ := (ofSeq_begins_has_iff hLowers).mp hHas
        exact hF.begin hRule hTerm t hTerminal hBegins
      rw [afterSymbol] at hNew
      split at hNew
      next hNullable =>
        rw [TerminalSet.has_union, Bool.or_eq_true] at hNew
        rcases hNew with hHas | hHas
        · exact hBegin hHas
        · exact hF.empty hRule hTerm ((ofSeq_begins_nullable_iff hLowers).mp hNullable) (h lhs hHas)
      next => exact hBegin hNew

theorem followers_le : followers l.follow ≤ F := by
  have hPass (follow : Follow) (h : followers follow ≤ F) : followers (l.followPass follow) ≤ F := by
    rw [followPass, ← Array.foldl_toList]
    refine List.foldlRecOn (motive := fun follow => followers follow ≤ F) _ _ h fun follow h p hp => ?_
    have hRule : g.Produces p.lhs ([] ++ p.rhs) := hLowers.produces_iff.mpr ⟨p, by simpa using hp, rfl, rfl⟩
    exact followers_addFollow_le hLowers hF hRule h
  rw [follow_eq_settle]
  refine settle_induction (fun follow => followers follow ≤ F) hPass ?_
  intro s t ht
  have hSet := TerminalSet.has_of_mapIdx ht
  split at hSet
  next hStart =>
    rw [Symbol.index_inj.mp hStart, ← Symbol.index_inj.mp (TerminalSet.has_single_iff.mp hSet)]
    exact hF.start
  next => simp [TerminalSet.has_zero] at hSet

end Least

end LoweredGrammar

/-- The sets of a lowered grammar are reached after so many passes, and are exact: a symbol is nullable where it
derives the empty text, terminals are in its first set where a sentential form of it begins with them, and
its follow set is the least one. -/
theorem begins_and_follow_least {g : Grammar} {l : LoweredGrammar} (h : g.lower = .ok l) :
    (∃ n ≤ l.passes, l.begins = l.beginsPass^[n] l.initialBegins ∧ l.beginsPass l.begins = l.begins) ∧
    (∃ n ≤ l.passes, l.follow = l.followPass^[n] l.initialFollow ∧ l.followPass l.follow = l.follow) ∧
    (∀ s, l.begins.isNullable s = true ↔ g.Derives [s] []) ∧
    (∀ s t, (l.begins.firstOf s).has t.index = true ↔ l.isTerminal t = true ∧ g.BeginsWith [s] t) ∧
    IsLeast {F : Symbol → Set Symbol | LoweredGrammar.Follows g l F} (LoweredGrammar.followers l.follow) := by
  have hLowers := Grammar.lower_eq_ok h
  refine ⟨?_, ?_, fun s => ?_, fun s t => ?_, LoweredGrammar.followers_follows hLowers, fun F hF => ?_⟩
  · obtain ⟨n, hn, hEq⟩ := settle_eq_iterate l.beginsPass l.passes l.initialBegins
    exact ⟨n, hn, LoweredGrammar.begins_eq_settle.trans hEq, (LoweredGrammar.begins_settled hLowers.inRange).2⟩
  · obtain ⟨n, hn, hEq⟩ := settle_eq_iterate l.followPass l.passes l.initialFollow
    exact ⟨n, hn, LoweredGrammar.follow_eq_settle.trans hEq, (LoweredGrammar.follow_settled hLowers.inRange).2⟩
  · rw [← LoweredGrammar.ofSeq_singleton_nullable]
    exact LoweredGrammar.ofSeq_begins_nullable_iff hLowers
  · rw [← LoweredGrammar.ofSeq_singleton_has]
    exact LoweredGrammar.ofSeq_begins_has_iff hLowers
  · exact LoweredGrammar.followers_le hLowers hF

namespace Grammar

/-- `y`, or `x` and `y`. -/
def optional : Grammar where
  name := "optional"
  rules := [⟨"s", [.symbol "a", .literal "y"], 0, .none⟩, ⟨"a", [.literal "x"], 0, .none⟩, ⟨"a", [], 0, .none⟩]

def optionalLowered : LoweredGrammar :=
  optional.assemble [] [] none
    [⟨⟨3⟩, [⟨4⟩, ⟨1⟩], [], 0, .none, false⟩, ⟨⟨4⟩, [⟨2⟩], [], 0, .none, false⟩, ⟨⟨4⟩, [], [], 0, .none, false⟩] ⟨3⟩

end Grammar

/-- In `optional` the first part may be empty, so the whole begins with `x` or with `y`; `y` follows the first part. -/
theorem optional_begins_and_follow : Grammar.optional.lower = .ok Grammar.optionalLowered ∧
    Grammar.optional.Derives [⟨4⟩] [] ∧ Grammar.optional.BeginsWith [⟨3⟩] ⟨1⟩ ∧
    ∀ F, LoweredGrammar.Follows Grammar.optional Grammar.optionalLowered F → (⟨1⟩ : Symbol) ∈ F ⟨4⟩ := by
  have hLower : Grammar.optional.lower = .ok Grammar.optionalLowered := by cbv
  obtain ⟨-, -, hNullable, hFirst, -, hLeast⟩ := begins_and_follow_least hLower
  refine ⟨hLower, (hNullable ⟨4⟩).mp (by decide +kernel), ((hFirst ⟨3⟩ ⟨1⟩).mp (by decide +kernel)).2, fun F hF => ?_⟩
  exact hLeast hF ⟨4⟩ (show _ = true by decide +kernel)

end Reparse
