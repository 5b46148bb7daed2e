import Reparse.Proofs.Grammar.Lowering
import Reparse.Language
/-!
# Languages of grammars

`l.BuiltFrom g` says that `l` has the table of `g` and the lex modes derived from it. Whatever terminals a
mode may produce, the error mode may produce as well.
-/
namespace Reparse

/-- The language has the table of the grammar and what is derived from it, with any scanner or none. -/
structure Language.BuiltFrom (l : Language) (g : Grammar) : Prop where
  build : g.build = .ok l.table
  modes : (l.modes, l.stateModes) = l.table.lexModes
  errorMode : l.errorMode = l.table.errorMode
  keywords : l.keywords = l.table.keywords

namespace Language

variable {l : Language} {g : Grammar}

theorem builtFrom_of_ofTable {t : Table} {handle : Nat} (hBuild : g.build = .ok t) (h : ofTable handle t = .ok l) :
    l.BuiltFrom g := by
  rw [ofTable] at h
  split at h
  · obtain rfl := Except.ok.inj h
    exact ⟨hBuild, rfl, rfl, rfl⟩
  · cases h

theorem BuiltFrom.withScanner (h : l.BuiltFrom g) (scanner : Scanner) : (l.withScanner scanner).BuiltFrom g :=
  ⟨h.build, h.modes, h.errorMode, h.keywords⟩

theorem BuiltFrom.built (h : l.BuiltFrom g) : ∃ lowered states, g.Built lowered states l.table :=
  Grammar.build_eq_ok h.build

theorem BuiltFrom.valid (h : l.BuiltFrom g) : l.table.Valid := by
  obtain ⟨_, _, hBuilt⟩ := h.built
  exact hBuilt.valid

end Language

namespace Table

variable {t : Table}

/-- What holds of no modes, and after every state whether or not its mode is new, holds of all modes. -/
theorem lexModes_induction {P : Nat → Array LexMode → Prop} (hNil : P 0 #[])
    (hKnown : ∀ n modes, P n modes → P (n + 1) modes)
    (hNew : ∀ n modes state, P n modes → P (n + 1) (modes.push (t.lexModeOf state))) :
    P t.stateCount.toNat t.lexModes.1 := by
  have hFold {step : Array LexMode × Array LexModeId → Nat → Array LexMode × Array LexModeId}
      (hStep : ∀ n modes ids state, P n modes → P (n + 1) (step (modes, ids) state).1) (states : List Nat) (n : Nat)
      (modes : Array LexMode) (ids : Array LexModeId) (hModes : P n modes) :
      P (n + states.length) (states.foldl step (modes, ids)).1 := by
    induction states generalizing n modes ids with
    | nil => exact hModes
    | cons state rest ih =>
      rw [List.foldl_cons, List.length_cons, Nat.add_comm rest.length, ← Nat.add_assoc]
      exact ih _ _ _ (hStep n modes ids state hModes)
  rw [lexModes]
  nth_rewrite 1 [← List.length_range (n := t.stateCount.toNat)]
  rw [← Nat.zero_add (List.length _)]
  refine hFold ?_ _ 0 #[] #[] hNil
  intro n modes ids state hModes
  dsimp only
  split
  · exact hKnown n modes hModes
  · exact hNew n modes _ hModes

/-- Every mode is that of some state. -/
theorem mem_lexModes {mode : LexMode} (h : mode ∈ t.lexModes.1) : ∃ state, mode = t.lexModeOf state := by
  refine t.lexModes_induction (P := fun _ modes => ∀ mode ∈ modes, ∃ state, mode = t.lexModeOf state) (by simp)
    (fun _ _ hModes => hModes) (fun _ modes state hModes mode hMode => ?_) mode h
  rcases Array.mem_push.mp hMode with hMode | rfl
  · exact hModes mode hMode
  · exact ⟨state, rfl⟩

theorem size_lexModes_le : t.lexModes.1.size ≤ t.stateCount.toNat := by
  refine t.lexModes_induction (P := fun n modes => modes.size ≤ n) (Nat.le_refl _) (fun n modes h => by omega)
    fun n modes state h => ?_
  rw [Array.size_push]
  omega

theorem mem_terminals {s : Symbol} : s ∈ t.terminals ↔ t.isTerminal s = true := by
  simp only [terminals, List.mem_map, List.mem_range, isTerminal, decide_eq_true_eq, UInt16.lt_iff_toNat_lt]
  constructor
  · rintro ⟨i, hi, rfl⟩
    have hBound := t.tokenCount.toNat_lt
    change (Symbol.ofIndex i).index < _
    rwa [Symbol.index_ofIndex (by omega)]
  · intro hs
    exact ⟨s.index, hs, Symbol.index_inj.mp (Symbol.index_ofIndex s.index_lt)⟩

theorem mem_withoutKeywords {tokens : List Symbol} {s : Symbol} (h : s ∈ t.withoutKeywords tokens) :
    (s ∈ tokens ∧ (t.word.isSome = true → t.isKeyword s = false)) ∨ t.word = some s := by
  rw [withoutKeywords] at h
  cases hWord : t.word with
  | none => rw [hWord] at h; exact .inl ⟨h, by simp⟩
  | some word =>
    rw [hWord] at h
    dsimp only at h
    have hKept (hs : s ∈ tokens.filter fun s => !t.isKeyword s) :
        s ∈ tokens ∧ ((some word).isSome = true → t.isKeyword s = false) := by
      obtain ⟨hMem, hNot⟩ := List.mem_filter.mp hs
      exact ⟨hMem, fun _ => by simpa using hNot⟩
    split at h
    · rcases List.mem_append.mp h with h | h
      · exact .inl (hKept h)
      · exact .inr (by rw [List.mem_singleton.mp h])
    · exact .inl (hKept h)

/-- A terminal with an automaton that is no keyword may come in the error mode. -/
theorem mem_errorMode {s : Symbol} (hTerm : t.isTerminal s = true) (hStart : (t.lexOf s).start.isSome = true)
    (hKeyword : t.word.isSome = true → t.isKeyword s = false) : s ∈ t.errorMode.tokens := by
  have hMem : s ∈ t.terminals.filter fun s => (t.lexOf s).start.isSome :=
    List.mem_filter.mpr ⟨mem_terminals.mpr hTerm, hStart⟩
  rw [errorMode, withoutKeywords]
  cases hWord : t.word with
  | none => exact hMem
  | some word =>
    have hKept : s ∈ (t.terminals.filter fun s => (t.lexOf s).start.isSome).filter fun s => !t.isKeyword s :=
      List.mem_filter.mpr ⟨hMem, by rw [hKeyword (by rw [hWord]; rfl)]; rfl⟩
    dsimp only
    split
    · exact List.mem_append_left _ hKept
    · exact hKept

/-- Whatever a state's mode may produce, the error mode may. -/
theorem Valid.lexModeOf_subset (h : t.Valid) {state : StateId} {s : Symbol} (hs : s ∈ (t.lexModeOf state).tokens) :
    s ∈ t.errorMode.tokens := by
  rw [lexModeOf] at hs
  dsimp only at hs
  rw [List.mem_mergeSort] at hs
  rcases mem_withoutKeywords hs with ⟨hs, hKeyword⟩ | hWord
  · rw [List.mem_eraseDups, List.mem_filter, Bool.and_eq_true] at hs
    obtain ⟨hExpected, _, hStart⟩ := hs
    refine mem_errorMode ?_ hStart hKeyword
    rcases List.mem_append.mp hExpected with hValid | hExtra
    · exact mem_terminals.mp (List.mem_filter.mp hValid).1
    · exact (h.extra_terminal (.inl hExtra)).1
  · obtain ⟨hTerm, hStart, hLiteral⟩ := h.word_pattern hWord
    refine mem_errorMode hTerm hStart fun _ => ?_
    by_contra hKeyword
    rw [Bool.not_eq_false] at hKeyword
    rw [(h.keyword_literal hKeyword).1] at hLiteral
    cases hLiteral

end Table

/-- The table is valid and the rest is derived from it. -/
structure Language.Derived (l : Language) : Prop where
  valid : l.table.Valid
  modes : (l.modes, l.stateModes) = l.table.lexModes
  errorMode : l.errorMode = l.table.errorMode
  keywords : l.keywords = l.table.keywords

namespace Language

variable {l : Language} {g : Grammar}

theorem BuiltFrom.derived (h : l.BuiltFrom g) : l.Derived := ⟨h.valid, h.modes, h.errorMode, h.keywords⟩

theorem Derived.mem_modes (h : l.Derived) {id : LexModeId} {mode : LexMode} (hMode : l.modes[id.toNat]? = some mode) :
    ∃ state, mode = l.table.lexModeOf state := by
  apply Table.mem_lexModes
  rw [← h.modes]
  exact Array.mem_of_getElem? hMode

theorem Derived.lexMode_subset (h : l.Derived) (id : LexModeId) {s : Symbol} (hs : s ∈ (l.lexMode id).tokens) :
    s ∈ l.errorMode.tokens := by
  rw [lexMode] at hs
  cases hMode : l.modes[id.toNat]? with
  | none => rwa [hMode] at hs
  | some mode =>
    rw [hMode, Option.getD_some] at hs
    obtain ⟨state, rfl⟩ := h.mem_modes hMode
    rw [h.errorMode]
    exact h.valid.lexModeOf_subset hs

theorem BuiltFrom.lexMode_subset (h : l.BuiltFrom g) (id : LexModeId) {s : Symbol}
    (hs : s ∈ (l.lexMode id).tokens) : s ∈ l.errorMode.tokens := h.derived.lexMode_subset id hs

/-- There are too few modes for one with the number of the error mode. -/
theorem BuiltFrom.modes_error (h : l.BuiltFrom g) : l.modes[errorLexMode.toNat]? = none := by
  have hSize : l.modes.size ≤ l.table.stateCount.toNat := by
    rw [show l.modes = l.table.lexModes.1 from congrArg Prod.fst h.modes]
    exact Table.size_lexModes_le
  have hCount := l.table.stateCount.toNat_lt
  have hIndex : errorLexMode.toNat = 65535 := rfl
  exact Array.getElem?_eq_none (by omega)

theorem BuiltFrom.lexMode_error (h : l.BuiltFrom g) : l.lexMode errorLexMode = l.errorMode := by
  rw [lexMode, h.modes_error, Option.getD_none]

end Language
end Reparse
