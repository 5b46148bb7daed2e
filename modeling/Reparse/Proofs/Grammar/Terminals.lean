import Reparse.Proofs.Grammar.Lowering
import Mathlib
/-!
# The terminals that begin and follow a symbol are complete

Each pass over the productions adds terminals or changes nothing, and there is room for no more of them
than there are passes. So the passes end where nothing is left to add: what a production asks of the
sets holds of `begins` and of `follow`.
-/
namespace Reparse

/-! ## Passes that only add -/

section Settling

variable {α β : Type} {weight : α → Nat}

/-- From `a` to `b` nothing changes or weight is gained. -/
def Gains (weight : α → Nat) (a b : α) : Prop := a = b ∨ weight a < weight b

theorem Gains.trans {a b c : α} (hab : Gains weight a b) (hbc : Gains weight b c) : Gains weight a c := by
  rcases hab with rfl | hab
  · exact hbc
  · rcases hbc with rfl | hbc
    · exact .inr hab
    · exact .inr (Nat.lt_trans hab hbc)

theorem Gains.weight_le {a b : α} (h : Gains weight a b) : weight a ≤ weight b := by
  rcases h with rfl | h
  · exact Nat.le_refl _
  · exact Nat.le_of_lt h

/-- Where the end is the beginning, nothing changed on the way. -/
theorem Gains.eq_of_loop {a b : α} (hab : Gains weight a b) (hba : Gains weight b a) : a = b := by
  rcases hab with hab | hab
  · exact hab
  · exact absurd hba.weight_le (Nat.not_le.mpr hab)

variable {Inv : α → Prop}

theorem foldl_gains {f : α → β → α} {xs : List β}
    (hf : ∀ x ∈ xs, ∀ a, Inv a → Inv (f a x) ∧ Gains weight a (f a x)) {a : α} (ha : Inv a) :
    Inv (xs.foldl f a) ∧ Gains weight a (xs.foldl f a) := by
  induction xs generalizing a with
  | nil => exact ⟨ha, .inl rfl⟩
  | cons x rest ih =>
    obtain ⟨hInv, hGains⟩ := hf x List.mem_cons_self a ha
    obtain ⟨hInv', hGains'⟩ := ih (fun y hy => hf y (List.mem_cons_of_mem _ hy)) hInv
    exact ⟨hInv', hGains.trans hGains'⟩

theorem fixed_of_foldl_eq {f : α → β → α} {xs : List β}
    (hf : ∀ x ∈ xs, ∀ a, Inv a → Inv (f a x) ∧ Gains weight a (f a x)) {a : α} (ha : Inv a)
    (hFixed : xs.foldl f a = a) : ∀ x ∈ xs, f a x = a := by
  induction xs with
  | nil => simp
  | cons x rest ih =>
    have hRest := fun y hy => hf y (List.mem_cons_of_mem x hy)
    obtain ⟨hInv, hGains⟩ := hf x List.mem_cons_self a ha
    have hBack : Gains weight (f a x) a := by
      have := (foldl_gains hRest hInv).2
      rwa [← List.foldl_cons, hFixed] at this
    have hx := (hGains.eq_of_loop hBack).symm
    rw [List.foldl_cons, hx] at hFixed
    intro y hy
    rcases List.mem_cons.mp hy with rfl | hy
    · exact hx
    · exact ih hRest hFixed y hy

/-- With fuel for all the weight there can be, the passes settle. -/
theorem settle_fixed [DecidableEq α] {step : α → α} {bound fuel : Nat} {a : α}
    (hStep : ∀ a, Inv a → Inv (step a) ∧ Gains weight a (step a)) (hBound : ∀ a, Inv a → weight a ≤ bound)
    (ha : Inv a) (hFuel : bound < fuel + weight a) :
    Inv (settle step fuel a) ∧ step (settle step fuel a) = settle step fuel a ∧
      weight a ≤ weight (settle step fuel a) := by
  induction fuel generalizing a with
  | zero => have := hBound a ha; omega
  | succ fuel ih =>
    obtain ⟨hInv, hGains⟩ := hStep a ha
    rw [settle]
    by_cases hEq : step a = a
    · simp [hEq, ha]
    · have hLt := hGains.resolve_left (Ne.symm hEq)
      obtain ⟨hInv', hFixed, hLe⟩ := ih hInv (by omega)
      simp only [hEq, if_false]
      exact ⟨hInv', hFixed, by omega⟩

theorem settle_eq_iterate [DecidableEq α] (step : α → α) (fuel : Nat) (a : α) :
    ∃ n ≤ fuel, settle step fuel a = step^[n] a := by
  induction fuel generalizing a with
  | zero => exact ⟨0, le_refl _, rfl⟩
  | succ fuel ih =>
    rw [settle]
    split
    · exact ⟨0, Nat.zero_le _, rfl⟩
    · obtain ⟨n, hn, hEq⟩ := ih (step a)
      exact ⟨n + 1, Nat.succ_le_succ hn, hEq⟩

theorem settle_induction [DecidableEq α] (Inv : α → Prop) {step : α → α} (hStep : ∀ a, Inv a → Inv (step a)) {fuel : Nat}
    {a : α} (ha : Inv a) : Inv (settle step fuel a) := by
  induction fuel generalizing a with
  | zero => exact ha
  | succ fuel ih =>
    rw [settle]
    split
    · exact ha
    · exact ih (hStep a ha)

end Settling

/-! ## The weight of sets -/

section Weight

variable {α : Type} {w : α → Nat}

def totalWeight (w : α → Nat) (xs : List α) : Nat := (xs.map w).sum

theorem modify_gains {xs : List α} {i : Nat} {f : α → α} (hf : ∀ x ∈ xs, Gains w x (f x)) :
    Gains (totalWeight w) xs (xs.modify i f) := by
  induction xs generalizing i with
  | nil => exact .inl (by simp)
  | cons x rest ih =>
    cases i with
    | zero =>
      rw [List.modify_zero_cons]
      rcases hf x List.mem_cons_self with hEq | hLt
      · exact .inl (by rw [← hEq])
      · exact .inr (by simpa [totalWeight] using hLt)
    | succ i =>
      rw [List.modify_succ_cons]
      rcases ih (i := i) fun y hy => hf y (List.mem_cons_of_mem _ hy) with hEq | hLt
      · exact .inl (by rw [← hEq])
      · exact .inr (by simpa [totalWeight] using hLt)

theorem totalWeight_le {xs : List α} {bound : Nat} (h : ∀ x ∈ xs, w x ≤ bound) :
    totalWeight w xs ≤ xs.length * bound := by
  induction xs with
  | nil => simp [totalWeight]
  | cons x rest ih =>
    have hx := h x List.mem_cons_self
    have hRest := ih fun y hy => h y (List.mem_cons_of_mem _ hy)
    simp only [totalWeight, List.map_cons, List.sum_cons, List.length_cons, Nat.succ_mul] at hRest ⊢
    omega

/-- How many of the first `n` terminals are in a set. -/
def TerminalSet.count (n : Nat) (set : TerminalSet) : Nat :=
  ((Finset.range n).filter fun i => set.has i = true).card

theorem TerminalSet.count_le (n : Nat) (set : TerminalSet) : set.count n ≤ n := by
  simpa [count] using Finset.card_filter_le (Finset.range n) fun i => set.has i = true

theorem TerminalSet.has_union (a b : TerminalSet) (i : Nat) : (a.union b).has i = (a.has i || b.has i) :=
  Nat.testBit_or a b i

theorem TerminalSet.union_gains {n : Nat} {a b : TerminalSet} (hb : b < 2 ^ n) :
    Gains (TerminalSet.count n) a (a.union b) := by
  by_cases hEq : a = a.union b
  · exact .inl hEq
  · refine .inr (Finset.card_lt_card (Finset.ssubset_iff_subset_ne.mpr ⟨?_, fun hSame => hEq ?_⟩))
    · intro i
      simp only [Finset.mem_filter, has_union, Bool.or_eq_true]
      exact fun h => ⟨h.1, .inl h.2⟩
    · refine Nat.eq_of_testBit_eq fun i => ?_
      change a.has i = (a.union b).has i
      rw [has_union]
      by_cases hi : i < n
      · have := Finset.ext_iff.mp hSame i
        simp only [Finset.mem_filter, Finset.mem_range, hi, true_and, has_union, Bool.or_eq_true] at this
        grind
      · have hAbove : b.has i = false :=
          Nat.testBit_lt_two_pow (Nat.lt_of_lt_of_le hb (Nat.pow_le_pow_right (by omega) (by omega)))
        simp [hAbove]

end Weight

namespace LoweredGrammar

variable {g : LoweredGrammar}

/-- One set for each symbol, of the first `width` terminals. -/
structure SetsFit (g : LoweredGrammar) (width : Nat) (sets : Array TerminalSet) : Prop where
  size : sets.size = g.symbols.size
  bound : ∀ set ∈ sets, set < 2 ^ width

/-- The weight of all sets together. -/
def setsWeight (width : Nat) (sets : Array TerminalSet) : Nat := totalWeight (TerminalSet.count width) sets.toList

variable {width : Nat}

theorem SetsFit.getD_lt {sets : Array TerminalSet} (h : g.SetsFit width sets) (i : Nat) :
    (sets[i]?).getD 0 < 2 ^ width := by
  cases hi : sets[i]? with
  | none => exact Nat.two_pow_pos _
  | some set => exact h.bound set (Array.mem_of_getElem? hi)

theorem SetsFit.weight_le {sets : Array TerminalSet} (h : g.SetsFit width sets) :
    setsWeight width sets ≤ g.symbols.size * width := by
  have := totalWeight_le fun set (_ : set ∈ sets.toList) => TerminalSet.count_le width set
  rwa [Array.length_toList, h.size] at this

theorem SetsFit.modify {sets : Array TerminalSet} (h : g.SetsFit width sets) {i : Nat} {set : TerminalSet}
    (hSet : set < 2 ^ width) :
    g.SetsFit width (sets.modify i (·.union set)) ∧ Gains (setsWeight width) sets (sets.modify i (·.union set)) := by
  refine ⟨⟨by simp [h.size], fun other hOther => ?_⟩, ?_⟩
  · obtain ⟨j, hj, rfl⟩ := Array.mem_iff_getElem.mp hOther
    have hj' : j < sets.size := by simpa using hj
    have hOld := h.bound sets[j] (Array.getElem_mem hj')
    rw [Array.getElem_modify]
    split
    · exact Nat.or_lt_two_pow hOld hSet
    · exact hOld
  · rcases modify_gains (i := i) fun x _ => TerminalSet.union_gains (a := x) hSet with hEq | hLt
    · exact .inl (by rw [← Array.toList_inj, Array.toList_modify]; exact hEq)
    · exact .inr (by rw [setsWeight, setsWeight, Array.toList_modify]; exact hLt)

theorem has_of_modify_eq {sets : Array TerminalSet} {i terminal : Nat} {set : TerminalSet} (hi : i < sets.size)
    (hFixed : sets.modify i (·.union set) = sets) (hHas : set.has terminal = true) :
    TerminalSet.has ((sets[i]?).getD 0) terminal = true := by
  have hEntry := congrArg (fun a : Array TerminalSet => a[i]?) hFixed
  simp only [Array.getElem?_modify, if_true, Array.getElem?_eq_getElem hi, Option.map_some, Option.some.injEq]
    at hEntry
  rw [Array.getElem?_eq_getElem hi, Option.getD_some, ← hEntry, TerminalSet.has_union, hHas, Bool.or_true]

theorem single_lt {i n : Nat} (h : i < n) : TerminalSet.single i < 2 ^ n := by
  rw [TerminalSet.single, Nat.one_shiftLeft]
  exact Nat.pow_lt_pow_right (by omega) h

theorem has_single (i : Nat) : (TerminalSet.single i).has i = true := by
  rw [TerminalSet.has, TerminalSet.single, Nat.one_shiftLeft, Nat.testBit_two_pow_self]

theorem has_modify {sets : Array TerminalSet} {i j terminal : Nat} {set : TerminalSet}
    (h : TerminalSet.has ((sets[i]?).getD 0) terminal = true) :
    TerminalSet.has (((sets.modify j (·.union set))[i]?).getD 0) terminal = true := by
  rw [Array.getElem?_modify]
  split
  · cases hi : sets[i]? with
    | none => rw [hi] at h; exact h
    | some old =>
      rw [hi] at h
      simp only [Option.getD_some] at h
      simp [TerminalSet.has_union, h]
  · exact h

/-! ## Beginnings -/

structure BeginsFit (g : LoweredGrammar) (b : Begins) : Prop where
  nullable : b.nullable.size = g.symbols.size
  first : g.SetsFit g.tokenCount.toNat b.first
  terminal : ∀ s, g.isTerminal s = true → (b.firstOf s).has s.index = true

def beginsWeight (g : LoweredGrammar) (b : Begins) : Nat :=
  totalWeight Bool.toNat b.nullable.toList + setsWeight g.tokenCount.toNat b.first

theorem BeginsFit.ofSeq_lt {b : Begins} (h : g.BeginsFit b) (symbols : List Symbol) :
    (b.ofSeq symbols).1 < 2 ^ g.tokenCount.toNat := by
  induction symbols with
  | nil => exact Nat.two_pow_pos _
  | cons s rest ih =>
    rw [Begins.ofSeq]
    split
    · exact Nat.or_lt_two_pow (h.first.getD_lt _) ih
    · exact h.first.getD_lt _

theorem BeginsFit.weight_le {b : Begins} (h : g.BeginsFit b) :
    g.beginsWeight b ≤ g.symbols.size * (g.tokenCount.toNat + 1) := by
  have hNullable := totalWeight_le fun x (_ : x ∈ b.nullable.toList) => Bool.toNat_le x
  rw [Array.length_toList, h.nullable] at hNullable
  have := h.first.weight_le
  rw [beginsWeight, Nat.mul_succ]
  omega

theorem BeginsFit.addProduction {b : Begins} (h : g.BeginsFit b) (p : LoweredProduction) :
    g.BeginsFit (b.addProduction p) ∧ Gains g.beginsWeight b (b.addProduction p) := by
  obtain ⟨hFirst, hFirstGains⟩ := h.first.modify (i := p.lhs.index) (h.ofSeq_lt p.rhs)
  refine ⟨⟨by simp [Begins.addProduction, h.nullable], hFirst, fun s hs => has_modify (h.terminal s hs)⟩, ?_⟩
  have hNullableGains := modify_gains (w := Bool.toNat) (i := p.lhs.index)
    (f := (· || (b.ofSeq p.rhs).2)) (fun x (_ : x ∈ b.nullable.toList) => by
      cases x <;> cases (b.ofSeq p.rhs).2 <;> simp [Gains])
  rw [← Array.toList_modify] at hNullableGains
  have hNullableLe := hNullableGains.weight_le
  rcases hFirstGains with hFirstEq | hFirstLt
  · rcases hNullableGains with hNullableEq | hNullableLt
    · left
      rw [Begins.addProduction]
      dsimp only
      rw [← hFirstEq, ← Array.toList_inj.mp hNullableEq]
    · right
      simp only [beginsWeight, Begins.addProduction]
      rw [← hFirstEq]
      omega
  · right
    simp only [beginsWeight, Begins.addProduction]
    omega

theorem beginsFit_initial (hTokens : g.tokenCount.toNat ≤ g.symbols.size) : g.BeginsFit g.initialBegins := by
  refine ⟨by simp [initialBegins], ⟨by simp [initialBegins], fun set hSet => ?_⟩, fun s hs => ?_⟩
  · obtain ⟨i, hi, rfl⟩ := Array.mem_iff_getElem.mp hSet
    simp only [initialBegins, Array.getElem_mapIdx]
    split
    next hLt => exact single_lt hLt
    next => exact Nat.two_pow_pos _
  · have hLt : s.index < g.tokenCount.toNat := by
      simpa [isTerminal, Symbol.index, UInt16.lt_iff_toNat_lt] using hs
    have hBound : s.index < g.symbols.size := by omega
    simp [Begins.firstOf, initialBegins, hBound, hLt, has_single]

/-- What the productions ask of the beginnings. -/
structure BeginsClosed (g : LoweredGrammar) (b : Begins) : Prop extends g.BeginsFit b where
  nullable_lhs : ∀ p ∈ g.productions, (b.ofSeq p.rhs).2 = true → b.isNullable p.lhs = true
  first_lhs : ∀ p ∈ g.productions, ∀ terminal, (b.ofSeq p.rhs).1.has terminal = true →
    (b.firstOf p.lhs).has terminal = true

/-- One pass over the productions. -/
def beginsPass (g : LoweredGrammar) (b : Begins) : Begins := g.productions.foldl Begins.addProduction b

theorem begins_eq_settle : g.begins = settle g.beginsPass g.passes g.initialBegins := rfl

theorem BeginsFit.addEach (p : LoweredProduction) (_ : p ∈ g.productions.toList) (b : Begins) (h : g.BeginsFit b) :
    g.BeginsFit (b.addProduction p) ∧ Gains g.beginsWeight b (b.addProduction p) :=
  h.addProduction p

/-- The passes end, and where they end one more changes nothing. -/
theorem begins_settled (hRange : g.InRange) : g.BeginsFit g.begins ∧ g.beginsPass g.begins = g.begins := by
  have hPass (b : Begins) (h : g.BeginsFit b) :
      g.BeginsFit (g.beginsPass b) ∧ Gains g.beginsWeight b (g.beginsPass b) := by
    rw [beginsPass, ← Array.foldl_toList]
    exact foldl_gains BeginsFit.addEach h
  obtain ⟨hFit, hFixed, _⟩ := settle_fixed hPass (fun b h => h.weight_le) (beginsFit_initial hRange.tokens_le)
    (show _ < g.passes + _ by rw [passes]; omega)
  rw [begins_eq_settle]
  exact ⟨hFit, hFixed⟩

theorem begins_closed (hRange : g.InRange) : g.BeginsClosed g.begins := by
  obtain ⟨hFit, hFixed⟩ := begins_settled hRange
  rw [beginsPass, ← Array.foldl_toList] at hFixed
  have hEach := fixed_of_foldl_eq BeginsFit.addEach hFit hFixed
  refine ⟨hFit, fun p hp hNullable => ?_, fun p hp terminal hHas => ?_⟩
  all_goals
    have hEq := hEach p (by simpa using hp)
    have hLhs := hRange.lhs p hp
  · have hEntry := congrArg (fun b : Begins => b.nullable[p.lhs.index]?) hEq
    change (Array.modify _ _ _)[p.lhs.index]? = _ at hEntry
    have hBound : p.lhs.index < g.begins.nullable.size := hFit.nullable ▸ hLhs
    simp only [Array.getElem?_modify, if_true, Array.getElem?_eq_getElem hBound, Option.map_some,
      Option.some.injEq, hNullable, Bool.or_true] at hEntry
    rw [Begins.isNullable, Array.getElem?_eq_getElem hBound, Option.getD_some, ← hEntry]
  · exact has_of_modify_eq (hFit.first.size ▸ hLhs) (congrArg Begins.first hEq) hHas

/-- A sequence before which nothing stands begins as its first symbol does. -/
theorem ofSeq_cons_has {b : Begins} {s : Symbol} {rest : List Symbol} {terminal : Nat}
    (h : (b.firstOf s).has terminal = true ∨
      b.isNullable s = true ∧ (b.ofSeq rest).1.has terminal = true) :
    (b.ofSeq (s :: rest)).1.has terminal = true := by
  rw [Begins.ofSeq]
  split
  next => simpa [TerminalSet.has_union] using h.imp_right And.right
  next hNot => exact h.resolve_right fun hRest => hNot hRest.1

theorem ofSeq_cons_nullable {b : Begins} {s : Symbol} {rest : List Symbol} (hs : b.isNullable s = true)
    (hRest : (b.ofSeq rest).2 = true) : (b.ofSeq (s :: rest)).2 = true := by
  rw [Begins.ofSeq, if_pos hs]
  exact hRest

/-! ## Followers -/

/-- How many terminals may follow a symbol; the end of the input may, even where there are no terminals. -/
def followWidth (g : LoweredGrammar) : Nat := max 1 g.tokenCount.toNat

theorem two_pow_tokenCount_le : 2 ^ g.tokenCount.toNat ≤ 2 ^ g.followWidth :=
  Nat.pow_le_pow_right (by omega) (le_max_right _ _)

structure FollowFit (g : LoweredGrammar) (follow : Follow) : Prop extends g.SetsFit g.followWidth follow where
  start : (followOf follow g.start).has Symbol.eof.index = true

/-- What may follow a symbol with `rest` after it in a right-hand side of `lhs`. -/
def afterSymbol (b : Begins) (follow : Follow) (lhs : Symbol) (rest : List Symbol) : TerminalSet :=
  if (b.ofSeq rest).2 then (b.ofSeq rest).1.union (followOf follow lhs) else (b.ofSeq rest).1

theorem addFollow_cons (b : Begins) (lhs s : Symbol) (rest : List Symbol) (follow : Follow) :
    g.addFollow b lhs (s :: rest) follow =
      g.addFollow b lhs rest (if g.isTerminal s then follow
        else follow.modify s.index (·.union (afterSymbol b follow lhs rest))) := rfl

theorem afterSymbol_lt {b : Begins} (hBegins : g.BeginsFit b) {follow : Follow} (h : g.FollowFit follow)
    (lhs : Symbol) (rest : List Symbol) : afterSymbol b follow lhs rest < 2 ^ g.followWidth := by
  have hRest := Nat.lt_of_lt_of_le (hBegins.ofSeq_lt rest) two_pow_tokenCount_le
  rw [afterSymbol]
  split
  · exact Nat.or_lt_two_pow hRest (h.getD_lt _)
  · exact hRest

theorem has_afterSymbol {b : Begins} {follow : Follow} {lhs : Symbol} {rest : List Symbol} {terminal : Nat}
    (h : (b.ofSeq rest).1.has terminal = true ∨
      (b.ofSeq rest).2 = true ∧ (followOf follow lhs).has terminal = true) :
    (afterSymbol b follow lhs rest).has terminal = true := by
  rw [afterSymbol]
  split
  next => simpa [TerminalSet.has_union] using h.imp_right And.right
  next hNot => exact h.resolve_right fun hEnd => hNot hEnd.1

theorem FollowFit.addSymbol {b : Begins} (hBegins : g.BeginsFit b) (lhs s : Symbol) (rest : List Symbol)
    {follow : Follow} (h : g.FollowFit follow) :
    let after := if g.isTerminal s then follow
      else follow.modify s.index (·.union (afterSymbol b follow lhs rest))
    g.FollowFit after ∧ Gains (setsWeight g.followWidth) follow after := by
  dsimp only
  split
  · exact ⟨h, .inl rfl⟩
  · obtain ⟨hFit, hGains⟩ := h.toSetsFit.modify (i := s.index) (afterSymbol_lt hBegins h lhs rest)
    exact ⟨⟨hFit, has_modify h.start⟩, hGains⟩

theorem FollowFit.addFollow {b : Begins} (hBegins : g.BeginsFit b) (lhs : Symbol) (rhs : List Symbol)
    {follow : Follow} (h : g.FollowFit follow) :
    g.FollowFit (g.addFollow b lhs rhs follow) ∧
      Gains (setsWeight g.followWidth) follow (g.addFollow b lhs rhs follow) := by
  induction rhs generalizing follow with
  | nil => exact ⟨h, .inl rfl⟩
  | cons s rest ih =>
    rw [addFollow_cons]
    obtain ⟨hFit, hGains⟩ := h.addSymbol hBegins lhs s rest
    obtain ⟨hFit', hGains'⟩ := ih hFit
    exact ⟨hFit', hGains.trans hGains'⟩

theorem addFollow_cons_eq {b : Begins} (hBegins : g.BeginsFit b) {lhs s : Symbol} {rest : List Symbol}
    {follow : Follow} (h : g.FollowFit follow) (hFixed : g.addFollow b lhs (s :: rest) follow = follow) :
    (if g.isTerminal s then follow
      else follow.modify s.index (·.union (afterSymbol b follow lhs rest))) = follow ∧
      g.addFollow b lhs rest follow = follow := by
  obtain ⟨hFit, hGains⟩ := h.addSymbol hBegins lhs s rest
  have hBack := (hFit.addFollow hBegins lhs rest).2
  rw [← addFollow_cons, hFixed] at hBack
  have hEq := (hGains.eq_of_loop hBack).symm
  refine ⟨hEq, ?_⟩
  rwa [addFollow_cons, hEq] at hFixed

/-- What a right-hand side asks of the sets. -/
theorem has_of_addFollow_eq {b : Begins} (hBegins : g.BeginsFit b) {lhs s : Symbol} {before after : List Symbol}
    {follow : Follow} (h : g.FollowFit follow) (hs : g.isTerminal s = false) (hBound : s.index < g.symbols.size)
    (hFixed : g.addFollow b lhs (before ++ s :: after) follow = follow) {terminal : Nat}
    (hHas : (b.ofSeq after).1.has terminal = true ∨
      (b.ofSeq after).2 = true ∧ (followOf follow lhs).has terminal = true) :
    (followOf follow s).has terminal = true := by
  induction before with
  | nil =>
    have hEq := (addFollow_cons_eq hBegins h hFixed).1
    simp only [hs, Bool.false_eq_true, if_false] at hEq
    exact has_of_modify_eq (h.size ▸ hBound) hEq (has_afterSymbol hHas)
  | cons s' before ih => exact ih (addFollow_cons_eq hBegins h hFixed).2

theorem followFit_initial (hRange : g.InRange) : g.FollowFit g.initialFollow := by
  refine ⟨⟨by simp [initialFollow], fun set hSet => ?_⟩, ?_⟩
  · obtain ⟨i, hi, rfl⟩ := Array.mem_iff_getElem.mp hSet
    simp only [initialFollow, Array.getElem_mapIdx]
    split
    · exact single_lt (Nat.lt_of_lt_of_le Nat.zero_lt_one (le_max_left _ _))
    · exact Nat.two_pow_pos _
  · simp [followOf, initialFollow, hRange.start, has_single]

/-- What the productions ask of the followers. -/
structure FollowClosed (g : LoweredGrammar) (b : Begins) (follow : Follow) : Prop where
  start : (followOf follow g.start).has Symbol.eof.index = true
  rhs : ∀ p ∈ g.productions, ∀ before s after, p.rhs = before ++ s :: after → g.isTerminal s = false →
    ∀ terminal, ((b.ofSeq after).1.has terminal = true ∨
      (b.ofSeq after).2 = true ∧ (followOf follow p.lhs).has terminal = true) →
    (followOf follow s).has terminal = true

/-- One pass over the right-hand sides. -/
def followPass (g : LoweredGrammar) (follow : Follow) : Follow :=
  g.productions.foldl (fun f p => g.addFollow g.begins p.lhs p.rhs f) follow

theorem follow_eq_settle : g.follow = settle g.followPass g.passes g.initialFollow := rfl

theorem follow_settled (hRange : g.InRange) : g.FollowFit g.follow ∧ g.followPass g.follow = g.follow := by
  have hBegins := (begins_settled hRange).1
  have hPass (follow : Follow) (h : g.FollowFit follow) :
      g.FollowFit (g.followPass follow) ∧ Gains (setsWeight g.followWidth) follow (g.followPass follow) := by
    rw [followPass, ← Array.foldl_toList]
    exact foldl_gains (fun p _ f h => h.addFollow hBegins p.lhs p.rhs) h
  have hWidth : g.symbols.size * g.followWidth ≤ g.symbols.size * (g.tokenCount.toNat + 1) :=
    Nat.mul_le_mul_left _ (by rw [followWidth]; omega)
  obtain ⟨hFit, hFixed, _⟩ := settle_fixed hPass (fun follow h => h.weight_le) (followFit_initial hRange)
    (show _ < g.passes + _ by rw [passes]; omega)
  rw [follow_eq_settle]
  exact ⟨hFit, hFixed⟩

theorem follow_closed (hRange : g.InRange) : g.FollowClosed g.begins g.follow := by
  have hBegins := (begins_settled hRange).1
  obtain ⟨hFit, hFixed⟩ := follow_settled hRange
  rw [followPass, ← Array.foldl_toList] at hFixed
  have hEach := fixed_of_foldl_eq (fun p _ f h => h.addFollow hBegins p.lhs p.rhs) hFit hFixed
  refine ⟨hFit.start, fun p hp before s after hRhs hs terminal hHas => ?_⟩
  have hEq := hEach p (by simpa using hp)
  rw [hRhs] at hEq
  have hMem : s ∈ p.rhs := by simp [hRhs]
  exact has_of_addFollow_eq hBegins hFit hs (hRange.rhs p hp s hMem) hEq hHas

theorem followOf_addFollow {b : Begins} {lhs s : Symbol} {rhs : List Symbol} {follow : Follow} (hs : s ∉ rhs) :
    followOf (g.addFollow b lhs rhs follow) s = followOf follow s := by
  induction rhs generalizing follow with
  | nil => rfl
  | cons s' rest ih =>
    rw [List.mem_cons, not_or] at hs
    obtain ⟨hNe, hRest⟩ := hs
    rw [addFollow_cons, ih hRest]
    split
    · rfl
    · rw [followOf, followOf, Array.getElem?_modify, if_neg fun hEq => hNe (Symbol.index_inj.mp hEq.symm)]

/-- Nothing is added for a symbol that stands in no right-hand side. -/
theorem followOf_follow_of_unused {s : Symbol} (hs : ∀ p ∈ g.productions, s ∉ p.rhs) :
    followOf g.follow s = followOf g.initialFollow s := by
  have hPass (follow : Follow) (hFollow : followOf follow s = followOf g.initialFollow s) :
      followOf (g.productions.foldl (fun f p => g.addFollow g.begins p.lhs p.rhs f) follow) s
        = followOf g.initialFollow s := by
    rw [← Array.foldl_toList]
    refine List.foldlRecOn (motive := fun follow => followOf follow s = followOf g.initialFollow s) _ _ hFollow ?_
    intro follow hFollow p hp
    rw [followOf_addFollow (hs p (by simpa using hp)), hFollow]
  have hSettled : ∀ fuel, followOf (settle _ fuel g.initialFollow) s = followOf g.initialFollow s :=
    fun fuel => settle_induction _ hPass rfl
  exact hSettled g.passes

end LoweredGrammar
end Reparse
