import Reparse.Proofs.Parse.Productions
/-!
# What a parse from scratch begins with

Without an old tree the first token is lexed in the first state, and empty nodes that are reduced before it are made there
too. Unless the parse meets an error, the node of the start symbol is therefore one of the first state and begins with a
leaf of its lex mode. Errors cannot be lost on the way to the root.
-/
namespace Reparse

open Subtree

variable {σ : Type}

/-- A token or a node over children. -/
def Subtree.Full (l : Language) (x : Subtree) : Prop := x.children ≠ [] ∨ l.isTerminal x.symbol = true

/-- Tokens of the first state are lexed in its mode or, where that fails, with all terminals. -/
def Language.Begins (l : Language) (mode : LexModeId) : Prop := mode = l.lexModeId 0 ∨ mode = errorLexMode

theorem Language.begins_lexModeId (l : Language) : l.Begins (l.lexModeId 0) := .inl rfl

namespace ParseStack

variable {l : Language} {s rest : ParseStack} {x : Subtree}

/-! ## Stacks -/

/-- Every structural entry belongs to the state below it, and has a size only as a token or over children. -/
inductive Seated (l : Language) : ParseStack → Prop
  | nil : Seated l []
  | extra {entry : StackEntry} {rest : ParseStack} : Seated l rest → entry.subtree.isExtra = true → Seated l (entry :: rest)
  | structural {entry : StackEntry} {rest : ParseStack} : Seated l rest → entry.subtree.isExtra = false →
    entry.subtree.info.state = rest.state → (entry.subtree.Full l ∨ entry.subtree.size = 0) → Seated l (entry :: rest)

theorem Seated.of_append {top : List StackEntry} (h : Seated l (top ++ s)) : s.Seated l := by
  induction top with
  | nil => exact h
  | cons _ _ ih => cases h <;> exact ih ‹_›

theorem Seated.pushExtras (h : s.Seated l) {extras : List Subtree} (hExtras : ∀ x ∈ extras, x.isExtra = true) :
    (s.pushExtras extras).Seated l := by
  induction extras generalizing s with
  | nil => exact h
  | cons x rest ih =>
    exact ih (.extra h (hExtras x List.mem_cons_self)) fun y hy => hExtras y (List.mem_cons_of_mem _ hy)

/-- A structural subtree that is alone among extras belongs to the first state. -/
theorem Seated.alone (h : s.Seated l) (hLinked : s.Linked l.table) {symbol : Symbol}
    (hSymbols : symbolsOf s.subtrees = [symbol]) {root : Subtree} (hRoot : root ∈ s.subtrees)
    (hStructural : root.isExtra = false) :
    root.info.state = 0 ∧ (root.Full l ∨ root.size = 0) ∧ l.table.Leads 0 root.symbol s.state := by
  induction h with
  | nil => cases hSymbols
  | @extra entry rest _ hExtra ih =>
    cases hLinked with
    | structural _ hNot => exact absurd (hNot.symm.trans hExtra) Bool.false_ne_true
    | extra hRest _ hState =>
      have hNone : symbolsOf [entry.subtree] = [] := symbolsOf_extras (by simpa using hExtra)
      rw [subtrees_cons, symbolsOf_append, hNone, List.append_nil] at hSymbols
      rw [subtrees_cons, List.mem_append, List.mem_singleton] at hRoot
      have hBelow : root ∈ rest.subtrees := by
        refine hRoot.resolve_right ?_
        rintro rfl
        exact absurd (hStructural.symm.trans hExtra) Bool.false_ne_true
      obtain ⟨hRootState, hFull, hLeads⟩ := ih hRest hSymbols hBelow
      refine ⟨hRootState, hFull, ?_⟩
      rwa [← hState] at hLeads
  | @structural entry rest _ hNot hState hFull ih =>
    cases hLinked with
    | extra _ hExtra => exact absurd (hNot.symm.trans hExtra) Bool.false_ne_true
    | structural hRest _ hLeads =>
      rw [subtrees_cons, symbolsOf_append, symbolsOf_singleton hNot] at hSymbols
      have hBelow : ∀ y ∈ rest.subtrees, y.isExtra = true := by
        obtain ⟨hNone, -⟩ := List.append_inj' (hSymbols.trans (List.nil_append [symbol]).symm) rfl
        intro y hy
        by_contra hStructural
        have hMem := mem_symbolsOf hy (by simpa using hStructural)
        rw [hNone] at hMem
        cases hMem
      rw [subtrees_cons, List.mem_append, List.mem_singleton] at hRoot
      obtain rfl : root = entry.subtree := by
        refine hRoot.resolve_left fun hMem => ?_
        exact absurd (hStructural.symm.trans (hBelow root hMem)) Bool.false_ne_true
      have hZero : rest.state = 0 := by
        rw [← List.append_nil rest] at hRest ⊢
        exact hRest.state_append fun e he => hBelow _ (mem_subtrees.mpr ⟨e, he, rfl⟩)
      rw [hZero] at hState hLeads
      exact ⟨hState, hFull, hLeads⟩

/-! ## Openings -/

/-- How far the opening of a text is read, `W` being what waits to be shifted: a structural entry has something in it; or
there is only an extra that was lexed in the first state; or there is nothing yet, and what waits was lexed there. -/
inductive Phase (l : Language) (W : Lookahead → Prop) (s : ParseStack) : Prop
  | full {x : Subtree} : x ∈ s.subtrees → x.isExtra = false → x.Full l → Phase l W s
  | extra {x : Subtree} : s.subtrees.find? isExtra = some x → l.Begins x.info.firstMode → Phase l W s
  | bare : s.subtrees.find? isExtra = none → (∀ t, W (.token t) → l.Begins t.lexMode) → (s = [] ∨ ∃ la, W la) →
    Phase l W s

/-- The stack of a parse from scratch that has met no error. -/
structure Opening (l : Language) (W : Lookahead → Prop) (s : ParseStack) : Prop where
  seated : s.Seated l
  first : ∀ x ∈ s.subtrees.head?, l.Begins x.info.firstMode
  phase : s.Phase l W

variable {W W' : Lookahead → Prop}

theorem opening_nil (h : ∀ la, ¬W la) : Opening l W [] where
  seated := .nil
  first x hx := by cases hx
  phase := .bare rfl (fun t ht => absurd ht (h _)) (.inl rfl)

theorem Opening.congr (h : s.Opening l W) (hTokens : ∀ t, W' (.token t) → W (.token t))
    (hSome : (∃ la, W la) → ∃ la, W' la) : s.Opening l W' where
  seated := h.seated
  first := h.first
  phase := by
    cases h.phase with
    | full hMem hStructural hFull => exact .full hMem hStructural hFull
    | extra hFind hMode => exact .extra hFind hMode
    | bare hFind hModes hWaits => exact .bare hFind (fun t ht => hModes t (hTokens t ht)) (hWaits.imp_right hSome)

/-- Before anything is pushed, what waits was lexed in the first state. -/
theorem Opening.begins (h : Opening l W []) {t : Token} (ht : W (.token t)) : l.Begins t.lexMode := by
  cases h.phase with
  | full hMem => cases hMem
  | extra hFind => cases hFind
  | bare _ hModes => exact hModes t ht

/-- A token is lexed when nothing waits. -/
theorem Opening.lexed (h : s.Opening l fun _ => False) {t : Token} (ht : s = [] → l.Begins t.lexMode) :
    s.Opening l fun la => la = .token t where
  seated := h.seated
  first := h.first
  phase := by
    cases h.phase with
    | full hMem hStructural hFull => exact .full hMem hStructural hFull
    | extra hFind hMode => exact .extra hFind hMode
    | bare hFind _ hWaits =>
      have hNil : s = [] := hWaits.resolve_right fun ⟨_, hFalse⟩ => hFalse
      refine .bare hFind ?_ (.inr ⟨_, rfl⟩)
      rintro t' ⟨⟩
      exact ht hNil

theorem subtrees_eq_nil : s.subtrees = [] ↔ s = [] := by
  rw [subtrees, List.map_eq_nil_iff, List.reverse_eq_nil_iff]

theorem Opening.first_append (h : s.Opening l W) {row : List Subtree}
    (hRow : s = [] → ∀ x ∈ row.head?, l.Begins x.info.firstMode) :
    ∀ x ∈ (s.subtrees ++ row).head?, l.Begins x.info.firstMode := by
  intro x hx
  rw [List.head?_append] at hx
  cases hHead : s.subtrees.head? with
  | some y =>
    rw [hHead, Option.some_or] at hx
    exact h.first x (hHead.trans hx)
  | none =>
    rw [hHead, Option.none_or] at hx
    exact hRow (subtrees_eq_nil.mp (List.head?_eq_none_iff.mp hHead)) x hx

theorem Opening.shift (h : s.Opening l W) {q : StateId} (hStructural : x.isExtra = false) (hFull : x.Full l)
    (hState : x.info.state = s.state) (hMode : s = [] → l.Begins x.info.firstMode) : (s.push q x).Opening l W' where
  seated := .structural h.seated hStructural hState (.inl hFull)
  first := by
    rw [subtrees_push]
    refine h.first_append fun hNil y hy => ?_
    obtain rfl := Option.some.inj hy
    exact hMode hNil
  phase := by
    refine .full (x := x) ?_ hStructural hFull
    rw [subtrees_push]
    exact List.mem_append_right _ List.mem_cons_self

theorem Opening.pushExtra (h : s.Opening l W) (hExtra : x.isExtra = true)
    (hMode : (∀ t, W (.token t) → l.Begins t.lexMode) → l.Begins x.info.firstMode) : (s.pushExtra x).Opening l W' where
  seated := .extra h.seated hExtra
  first := by
    rw [ParseStack.pushExtra, subtrees_push]
    refine h.first_append fun hNil y hy => ?_
    obtain rfl := Option.some.inj hy
    subst hNil
    exact hMode fun t ht => h.begins ht
  phase := by
    cases h.phase with
    | full hMem hStructural hFull =>
      refine .full ?_ hStructural hFull
      rw [ParseStack.pushExtra, subtrees_push]
      exact List.mem_append_left _ hMem
    | @extra y hFind hBegins =>
      refine .extra ?_ hBegins
      rw [ParseStack.pushExtra, subtrees_push, List.find?_append, hFind, Option.some_or]
    | bare hFind hModes =>
      refine .extra ?_ (hMode hModes)
      rw [ParseStack.pushExtra, subtrees_push, List.find?_append, hFind, Option.none_or, List.find?_singleton, if_pos hExtra]

/-- A node is put over the entries of its children, below the extras at the top. The lookahead still waits. -/
theorem Opening.reduce {top children below : List StackEntry} (h : Opening l W (top ++ (children ++ below)))
    (hTop : ∀ e ∈ top, e.subtree.isExtra = true) {node : Subtree} {q : StateId} (hStructural : node.isExtra = false)
    (hChildren : node.children = subtrees children) (hState : node.info.state = state below)
    (hEmpty : children = [] → node.size = 0 ∧ node.info.firstMode = l.lexModeId (state below))
    (hHead : ∀ x ∈ (subtrees children).head?, node.info.firstMode = x.info.firstMode) {la : Lookahead} (hla : W la) :
    Opening l W (pushExtras (push below q node) (subtrees top)) := by
  have hExtras : ∀ x ∈ subtrees top, x.isExtra = true := by
    intro x hx
    obtain ⟨e, he, rfl⟩ := mem_subtrees.mp hx
    exact hTop e he
  have hOld : subtrees (top ++ (children ++ below)) = subtrees below ++ subtrees children ++ subtrees top := by
    rw [subtrees_append, subtrees_append]
  have hNew : (pushExtras (push below q node) (subtrees top)).subtrees = subtrees below ++ [node] ++ subtrees top := by
    rw [subtrees_pushExtras, subtrees_push]
  have hFull : node.Full l ∨ node.size = 0 := by
    by_cases hNil : children = []
    · exact .inr (hEmpty hNil).1
    · refine .inl (.inl ?_)
      rwa [hChildren, ne_eq, subtrees_eq_nil]
  constructor
  · apply Seated.pushExtras _ hExtras
    exact .structural h.seated.of_append.of_append hStructural hState hFull
  · intro x hx
    rw [hNew, List.append_assoc, List.head?_append] at hx
    have hFirst := h.first
    rw [hOld, List.append_assoc, List.head?_append] at hFirst
    cases hBelow : (subtrees below).head? with
    | some y =>
      rw [hBelow, Option.some_or] at hx hFirst
      exact hFirst x hx
    | none =>
      rw [hBelow, Option.none_or] at hx hFirst
      obtain rfl := Option.some.inj hx
      have hBottom := subtrees_eq_nil.mp (List.head?_eq_none_iff.mp hBelow)
      cases hRow : (subtrees children).head? with
      | some y =>
        rw [List.head?_append, hRow, Option.some_or] at hFirst
        rw [hHead y hRow]
        exact hFirst y rfl
      | none =>
        have hNil := subtrees_eq_nil.mp (List.head?_eq_none_iff.mp hRow)
        rw [(hEmpty hNil).2, hBottom]
        exact l.begins_lexModeId
  · -- An empty node leaves the phase as it is; any other one is full.
    by_cases hNil : children = []
    · subst hNil
      rw [subtrees_nil, List.append_nil] at hOld
      have hFind : (subtrees below ++ [node] ++ subtrees top).find? isExtra = (subtrees below ++ subtrees top).find? isExtra := by
        simp [List.find?_append, hStructural]
      cases h.phase with
      | @full x hMem hNot hFull =>
        refine .full ?_ hNot hFull
        rw [hOld, List.mem_append] at hMem
        rw [hNew, List.mem_append, List.mem_append]
        exact hMem.imp_left .inl
      | extra hSome hMode =>
        refine .extra ?_ hMode
        rw [hNew, hFind, ← hOld, hSome]
      | bare hNone hModes =>
        refine .bare ?_ hModes (.inr ⟨la, hla⟩)
        rw [hNew, hFind, ← hOld, hNone]
    · refine .full (x := node) ?_ hStructural (.inl ?_)
      · rw [hNew]
        simp
      · rwa [hChildren, ne_eq, subtrees_eq_nil]

/-- An error that goes into every node put over it. -/
def Marred (l : Language) (s : ParseStack) : Prop := ∃ x ∈ s.subtrees, x.hasError = true ∧ (x.isExtra = true ∨ x.Full l)

theorem Marred.of_mem (h : s.Marred l) (hMem : ∀ x ∈ s.subtrees, x ∈ rest.subtrees) : rest.Marred l := by
  obtain ⟨x, hx, hError⟩ := h
  exact ⟨x, hMem x hx, hError⟩

theorem marred_push {q : StateId} (hError : x.hasError = true) (hFull : x.isExtra = true ∨ x.Full l) :
    (s.push q x).Marred l :=
  ⟨x, by rw [subtrees_push]; exact List.mem_append_right _ List.mem_cons_self, hError, hFull⟩

/-- What is put over an error on the stack has it too. -/
theorem Marred.reduce {top children below : List StackEntry} {node : Subtree} {q : StateId}
    (h : Marred l (top ++ (children ++ below))) (hChildren : node.children = subtrees children)
    (hError : ∀ x ∈ subtrees children, x.hasError = true → node.hasError = true) :
    (pushExtras (push below q node) (subtrees top)).Marred l := by
  obtain ⟨x, hx, hHere, hFull⟩ := h
  simp only [subtrees_append, List.mem_append] at hx
  have hNew : (pushExtras (push below q node) (subtrees top)).subtrees = subtrees below ++ [node] ++ subtrees top := by
    rw [subtrees_pushExtras, subtrees_push]
  rcases hx with (hx | hx) | hx
  · exact ⟨x, by simp [hNew, hx], hHere, hFull⟩
  · refine ⟨node, by simp [hNew], hError x hx hHere, .inr (.inl ?_)⟩
    rw [hChildren]
    exact List.ne_nil_of_mem hx
  · exact ⟨x, by simp [hNew, hx], hHere, hFull⟩

end ParseStack
end Reparse
