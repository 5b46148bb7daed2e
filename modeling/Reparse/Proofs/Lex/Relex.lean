import Reparse.Proofs.Lex.Encoding
import Reparse.Proofs.Lex.Munch
/-!
# Lexing again in another mode

A token that is lexed in one mode is lexed alike in a mode that still admits it and has no terminals of its own:
without the competitors that are gone the same lexeme wins, and keywords are told apart from words as before.
-/
namespace Reparse

namespace Grammar

theorem not_mem_of_duplicateFault {earlier names : List String} (h : duplicateFault earlier names = none)
    {name : String} (hName : name ∈ names) : name ∉ earlier := by
  induction names generalizing earlier with
  | nil => cases hName
  | cons first rest ih =>
    rw [duplicateFault] at h
    split at h
    next => cases h
    next hFirst =>
      rcases List.mem_cons.mp hName with rfl | hName
      · simpa using hFirst
      · exact fun hMem => ih h hName (List.mem_cons_of_mem _ hMem)

namespace Built

variable {g : Grammar} {l : LoweredGrammar} {states : Array LoweredGrammar.ItemState} {t : Table}
  (h : g.Built l states t)
include h

/-- The automata leave the external tokens to the scanner. -/
theorem start_of_external (hNodes : t.lexNodes.size ≤ 2 ^ 32) {s : Symbol} (hs : s ∈ t.externals) :
    (t.lexOf s).start = none := by
  have hExternals : t.externals = l.externals := by rw [h.table]; rfl
  rw [hExternals] at hs
  obtain ⟨name, hName, hResolve⟩ := forall₂_mem_right h.lowers.externals hs
  have hFault := h.lowers.declarations
  rw [declarationFault] at hFault
  split at hFault
  next => cases hFault
  next =>
    simp only [Option.orElse_eq_orElse, Option.orElse_eq_or, Option.or_eq_none_iff] at hFault
    have hNot := not_mem_of_duplicateFault hFault.2.1 hName
    have hMem : name ∈ g.vocabulary.tokens := List.mem_append_right _ hName
    obtain ⟨i, hi⟩ : ∃ i, g.vocabulary.tokens.idxOf? name = some i := by
      rw [← Option.isSome_iff_exists, List.isSome_idxOf?]
      exact hMem
    have hToken : g.vocabulary.token? name = some (.ofIndex (1 + i)) := by rw [Vocabulary.token?, hi]; rfl
    rw [Vocabulary.resolve, hToken] at hResolve
    obtain rfl := Except.ok.inj hResolve
    obtain ⟨hBound, hAt, _⟩ := List.idxOf?_eq_some_iff.mp hi
    have hCount := h.symbolCount_lt
    rw [Vocabulary.symbolCount, Vocabulary.terminalCount] at hCount
    have hIndex : (Symbol.ofIndex (1 + i)).index = 1 + i := Symbol.index_ofIndex (by omega)
    rw [Option.eq_none_iff_forall_ne_some]
    intro first hFirst
    cases h.lexes hNodes hFirst with
    | @named j other _ _ hEntry hNamed =>
      -- No named token has the name.
      obtain rfl : j = i := by omega
      have hOther : g.vocabulary.tokens[j]? = some other := by
        rw [vocabulary, List.getElem?_append_left (by simpa using (List.getElem?_eq_some_iff.mp hEntry).1)]
        simp [hEntry]
      rw [List.getElem?_eq_getElem hBound, hAt] at hOther
      obtain rfl := Option.some.inj hOther
      exact hNot (List.mem_map.mpr ⟨_, List.mem_of_getElem? hEntry, rfl⟩)
    | literal _ hLiteral => omega

end Built
end Grammar

/-- The token that is lexed first where `s` may come: the word token for a keyword. -/
def Table.lexedAs (t : Table) (s : Symbol) : Symbol :=
  match t.word with
  | some word => if t.isKeyword s then word else s
  | none => s

theorem LexMode.subset_of_covers {outer inner : LexMode} (h : outer.covers inner = true) {s : Symbol}
    (hs : s ∈ inner.tokens) : s ∈ outer.tokens := by
  rw [covers, Bool.and_eq_true, List.all_eq_true] at h
  simpa using h.1 s hs

namespace Language

variable {g : Grammar} {l : Language} {bytes : List UInt8} {pos : Nat} {tokens inner outer : List Symbol}

/-- Modes offer the word token in place of keywords. -/
theorem BuiltFrom.not_keyword (h : l.BuiltFrom g) (id : LexModeId) {s : Symbol} (hs : s ∈ (l.lexMode id).tokens) :
    l.table.isKeyword s = false := by
  have hMem := h.lexMode_subset id hs
  rw [h.errorMode, Table.errorMode] at hMem
  by_contra hKeyword
  rw [Bool.not_eq_false] at hKeyword
  obtain ⟨hLiteral, hSome⟩ := h.valid.keyword_literal hKeyword
  rcases Table.mem_withoutKeywords hMem with ⟨_, hNot⟩ | hWord
  · rw [hNot hSome] at hKeyword
    cases hKeyword
  · rw [(h.valid.word_pattern hWord).2.2] at hLiteral
    cases hLiteral

/-- One mode covers the other, and that one still offers what the token is lexed as. -/
theorem BuiltFrom.covered_of_canRelexAs (h : l.BuiltFrom g) (hNodes : l.table.lexNodes.size ≤ 2 ^ 32) {s : Symbol}
    {a b : LexModeId} (hRelex : l.canRelexAs s a b = true) (hNe : a ≠ b)
    (hStart : (l.table.lexOf (l.table.lexedAs s)).start.isSome = true) :
    (∀ s ∈ (l.lexMode b).tokens, s ∈ (l.lexMode a).tokens) ∧ l.table.lexedAs s ∈ (l.lexMode b).tokens := by
  obtain ⟨_, _, hBuilt⟩ := h.built
  rw [canRelexAs, Bool.or_eq_true, beq_iff_eq] at hRelex
  replace hRelex := hRelex.resolve_left hNe
  split at hRelex
  next outer inner hOuter hInner =>
    simp only [Bool.and_eq_true] at hRelex
    obtain ⟨hCovers, hAdmits⟩ := hRelex
    change l.admits inner (l.table.lexedAs s) = true at hAdmits
    simp only [lexMode, hOuter, hInner, Option.getD_some]
    refine ⟨fun s hs => LexMode.subset_of_covers hCovers hs, ?_⟩
    rw [admits] at hAdmits
    split at hAdmits
    next i hExternal =>
      have hMem : l.table.lexedAs s ∈ l.table.externals := by
        rw [← List.isSome_idxOf?, hExternal]
        rfl
      rw [hBuilt.start_of_external hNodes hMem] at hStart
      cases hStart
    next => simpa using hAdmits
  next => cases hRelex

/-- No mode is numbered as the error mode is. -/
theorem BuiltFrom.eq_errorLexMode_of_canRelexAs (h : l.BuiltFrom g) {s : Symbol} {id : LexModeId}
    (hRelex : l.canRelexAs s errorLexMode id = true) : id = errorLexMode := by
  rw [canRelexAs, Bool.or_eq_true, beq_iff_eq, h.modes_error] at hRelex
  rcases hRelex with hSame | hNever
  · exact hSame.symm
  · cases hNever

/-! ## The same choice -/

theorem IsBest.unique {a b : Nat × Symbol} (ha : l.IsBest tokens bytes pos a) (hb : l.IsBest tokens bytes pos b) :
    a = b :=
  (ha.2 b hb.1).antisymm (hb.2 a ha.1)

theorem IsBest.of_subset {c : Nat × Symbol} (h : l.IsBest outer bytes pos c) (hSubset : ∀ s ∈ inner, s ∈ outer)
    (hMem : c.2 ∈ inner) : l.IsBest inner bytes pos c :=
  ⟨⟨hMem, h.1.2⟩, fun c' hc' => h.2 c' ⟨hSubset _ hc'.1, hc'.2⟩⟩

theorem BuiltFrom.picks_unique (h : l.BuiltFrom g) (hNodes : l.table.lexNodes.size ≤ 2 ^ 32) {a b : Nat × Symbol}
    (ha : l.Picks tokens bytes pos a) (hb : l.Picks tokens bytes pos b) : a = b := by
  cases ha with
  | best hBest hSpans hNone =>
    cases hb with
    | best hBest' => exact hBest.unique hBest'
    | keyword hBest' hSpans' hWord hSpells =>
      obtain rfl := hBest.unique hBest'
      obtain rfl := hSpans.text_unique hSpans'
      exact absurd hSpells (hNone hWord _)
  | keyword hBest hSpans hWord hSpells =>
    cases hb with
    | best hBest' hSpans' hNone =>
      obtain rfl := hBest.unique hBest'
      obtain rfl := hSpans.text_unique hSpans'
      exact absurd hSpells (hNone hWord _)
    | keyword hBest' hSpans' hWord' hSpells' =>
      obtain ⟨rfl, _⟩ := Prod.mk.inj (hBest.unique hBest')
      obtain rfl := hSpans.text_unique hSpans'
      rw [h.spells_unique hNodes hSpells hSpells']

/-- The token that is lexed first is one of those at hand, and has an automaton. -/
theorem BuiltFrom.lexedAs_of_picks (h : l.BuiltFrom g) (hNot : ∀ s ∈ tokens, l.table.isKeyword s = false)
    {c : Nat × Symbol} (hPicks : l.Picks tokens bytes pos c) :
    (l.table.lexOf (l.table.lexedAs c.2)).start.isSome = true ∧
      ∀ inner, (∀ s ∈ inner, s ∈ tokens) → l.table.lexedAs c.2 ∈ inner → l.Picks inner bytes pos c := by
  cases hPicks with
  | best hBest hSpans hNone =>
    obtain ⟨hMem, _, _, _, hStart, _⟩ := id hBest.1
    have hSame : l.table.lexedAs c.2 = c.2 := by
      rw [Table.lexedAs]
      split
      · rw [hNot _ hMem]
        rfl
      · rfl
    rw [hSame]
    exact ⟨by rw [hStart]; rfl, fun inner hSubset hInner => .best (hBest.of_subset hSubset hInner) hSpans hNone⟩
  | @keyword stop word keyword text hBest hSpans hWord hSpells =>
    obtain ⟨_, _, _, _, hStart, _⟩ := id hBest.1
    have hSame : l.table.lexedAs keyword = word := by
      rw [Table.lexedAs, hWord]
      exact if_pos (h.mem_keywords hSpells.1)
    rw [hSame]
    exact ⟨by rw [hStart]; rfl,
      fun inner hSubset hInner => .keyword (hBest.of_subset hSubset hInner) hSpans hWord hSpells⟩

theorem Picks.lexeme {c : Nat × Symbol} (h : l.Picks tokens bytes pos c) :
    ∃ c', l.table.Lexeme tokens bytes pos c' := by
  cases h with
  | best hBest => exact ⟨_, hBest.1⟩
  | keyword hBest => exact ⟨_, hBest.1⟩

theorem ErrorEnd.unique {a b : Nat} (ha : l.ErrorEnd bytes pos a) (hb : l.ErrorEnd bytes pos b)
    (hPos : pos ≤ bytes.length) : a = b := by
  have hLe {a b : Nat} (ha : l.ErrorEnd bytes pos a) (hb : l.ErrorEnd bytes pos b) : b ≤ a := by
    by_contra hLt
    rw [Nat.not_le] at hLt
    obtain ⟨text, _, hSpans⟩ := hb.boundary
    have hWithin := hSpans.le_length hPos
    rcases ha.ended with hEnd | ⟨c, hc⟩
    · omega
    · exact hb.first a ha.boundary hLt c hc
  exact Nat.le_antisymm (hLe hb ha) (hLe ha hb)

/-! ## The same token -/

/-- Tokens alike but for their modes and what was looked at past their ends. -/
structure Alike (a b : Token) : Prop where
  symbol : a.symbol = b.symbol
  size : a.size = b.size
  isError : a.isError = b.isError

/-- Where the text goes on and some choice is made in a mode, its token is that choice. -/
theorem BuiltFrom.alike_of_picks (h : l.BuiltFrom g) (hNodes : l.table.lexNodes.size ≤ 2 ^ 32) {found : Found} {b : Token}
    {id lexedIn : LexModeId} {stop : Nat} (hWithin : pos < bytes.length)
    (hFound : l.Picks (l.lexMode id).tokens bytes pos (found.stop, found.symbol)) (hb : l.Munches bytes pos id stop b) :
    Alike b (tokenOf pos found lexedIn) := by
  obtain ⟨c, hc⟩ := hFound.lexeme
  cases hb with
  | eof hEnd => exact absurd hWithin (Nat.not_lt.mpr hEnd)
  | inMode _ hb =>
    obtain ⟨hStop, hSymbol⟩ := Prod.mk.inj (h.picks_unique hNodes hb hFound)
    exact ⟨hSymbol, by rw [tokenOf, tokenOf, hStop], rfl⟩
  | inErrorMode _ hNone => exact absurd hc (hNone c)
  | error _ hNone => exact absurd hc (hNone c)

theorem BuiltFrom.munches_alike (h : l.BuiltFrom g) (hNodes : l.table.lexNodes.size ≤ 2 ^ 32) {a b : Token}
    {id id' : LexModeId} {stop stop' : Nat} (ha : l.Munches bytes pos id stop a) (hb : l.Munches bytes pos id' stop' b)
    (hRelex : l.canRelexAs a.symbol a.lexMode id' = true) : Alike b a := by
  cases ha with
  | eof hEnd =>
    cases hb with
    | eof => exact ⟨rfl, rfl, rfl⟩
    | inMode hWithin => exact absurd hWithin (Nat.not_lt.mpr hEnd)
    | inErrorMode hWithin => exact absurd hWithin (Nat.not_lt.mpr hEnd)
    | error hWithin => exact absurd hWithin (Nat.not_lt.mpr hEnd)
  | @inMode found hWithin ha =>
    refine h.alike_of_picks hNodes hWithin ?_ hb
    change l.canRelexAs found.symbol id id' = true at hRelex
    by_cases hSame : id = id'
    · rwa [← hSame]
    · obtain ⟨hLexed, hFewer⟩ := h.lexedAs_of_picks (fun s hs => h.not_keyword id hs) ha
      obtain ⟨hSubset, hMem⟩ := h.covered_of_canRelexAs hNodes hRelex hSame hLexed
      exact hFewer _ hSubset hMem
  | @inErrorMode found hWithin _ ha =>
    refine h.alike_of_picks hNodes hWithin ?_ hb
    change l.canRelexAs found.symbol errorLexMode id' = true at hRelex
    rw [h.eq_errorLexMode_of_canRelexAs hRelex, h.lexMode_error]
    exact ha
  | error hWithin _ hNone hEnd =>
    change l.canRelexAs .error errorLexMode id' = true at hRelex
    have hTokens : (l.lexMode id').tokens = l.errorMode.tokens := by
      rw [h.eq_errorLexMode_of_canRelexAs hRelex, h.lexMode_error]
    cases hb with
    | eof hPast => exact absurd hWithin (Nat.not_lt.mpr hPast)
    | inMode _ hb =>
      obtain ⟨c, hc⟩ := hb.lexeme
      rw [hTokens] at hc
      exact absurd hc (hNone c)
    | inErrorMode _ _ hb =>
      obtain ⟨c, hc⟩ := hb.lexeme
      exact absurd hc (hNone c)
    | error _ _ _ hEnd' =>
      have hStop := hEnd'.unique hEnd (Nat.le_of_lt hWithin)
      exact ⟨rfl, by rw [errorToken, errorToken, hStop], rfl⟩

end Language

variable {σ τ : Type}

/-- Lexing again in a covered mode changes nothing. If a token lexed in mode `a` may be relexed in mode `b`, then
lexing there in mode `b` gives a token of the same symbol and size that is an error if it was one. The sources may
cut the text differently, and the scanner's state is of no concern. -/
theorem lex_again {g : Grammar} {l : Language} (h : l.BuiltFrom g) (hNodes : l.table.lexNodes.size ≤ 2 ^ 32)
    {bytes : List UInt8} {src : Source σ} {Ok : σ → Prop} (hServes : src.Serves Ok bytes) {input : σ}
    (hInput : Ok input) {src' : Source τ} {Ok' : τ → Prop} (hServes' : src'.Serves Ok' bytes) {input' : τ}
    (hInput' : Ok' input') (pos : Nat) (a b : LexModeId) (state state' : Option (List UInt8))
    (hRoom : l.lexRenewals src pos a ⟨l.lexMarks, input⟩ < 2 ^ 32)
    (hRoom' : l.lexRenewals src' pos b ⟨l.lexMarks, input'⟩ < 2 ^ 32)
    (hRelex : l.canRelexAs (l.lex none src pos a state ⟨l.lexMarks, input⟩).1.symbol
      (l.lex none src pos a state ⟨l.lexMarks, input⟩).1.lexMode b = true) :
    Language.Alike (l.lex none src' pos b state' ⟨l.lexMarks, input'⟩).1
      (l.lex none src pos a state ⟨l.lexMarks, input⟩).1 := by
  obtain ⟨_, hMunches⟩ := h.munches hNodes (Language.lexAutomata_lexed_fresh hServes hInput hRoom)
  obtain ⟨_, hMunches'⟩ := h.munches hNodes (Language.lexAutomata_lexed_fresh hServes' hInput' hRoom')
  exact h.munches_alike hNodes hMunches hMunches' hRelex

/-- Numbers, and `if` before words. Mode 0 is that of the first state, mode 2 that of the state after `if`. -/
def Grammar.calls : Grammar where
  name := "calls"
  tokens := [("word", .plus (.chars ⟨#[('a', 'z')], false⟩)), ("number", .plus (.chars ⟨#[('0', '9')], false⟩))]
  rules := [⟨"s", [.literal "if", .symbol "word"], 0, .none⟩, ⟨"s", [.symbol "number"], 0, .none⟩]
  word := some "word"

theorem Grammar.calls_build : (Grammar.calls.build.toOption.map fun t =>
    let l := Language.ofValid 0 t Blob.formatVersion
    ((decide (t.lexNodes.size ≤ 2 ^ 32), (l.lexMode 0).tokens, l.keywords, t.word),
      (l.canRelexAs ⟨1⟩ 0 2, l.canRelexAs ⟨3⟩ 0 2),
      ((t.lexOf ⟨1⟩).start, (t.lexOf ⟨2⟩).start, t.lexNodes.toList.take 6))) =
      some ((true, [⟨1⟩, ⟨2⟩], [⟨3⟩], some ⟨1⟩), (true, true), (some 2, some 5, [.accept ⟨1⟩, .split 2 0,
        .chars ⟨#[('a', 'z')], false⟩ 1, .accept ⟨2⟩, .split 5 3, .chars ⟨#[('0', '9')], false⟩ 4])) := by cbv

/-- The text `if` is lexed alike where numbers may come as well and where only words may. -/
theorem calls_again : ∃ l : Language, l.BuiltFrom Grammar.calls ∧ l.table.lexNodes.size ≤ 2 ^ 32 ∧
    l.lexRenewals (.ofBytes "if".toUTF8) 0 0 ⟨l.lexMarks, ()⟩ < 2 ^ 32 ∧
    l.lexRenewals (.ofBytes "if".toUTF8) 0 2 ⟨l.lexMarks, ()⟩ < 2 ^ 32 ∧
    l.canRelexAs (l.lex none (.ofBytes "if".toUTF8) 0 0 none ⟨l.lexMarks, ()⟩).1.symbol
      (l.lex none (.ofBytes "if".toUTF8) 0 0 none ⟨l.lexMarks, ()⟩).1.lexMode 2 = true ∧
    Language.Alike (l.lex none (.ofBytes "if".toUTF8) 0 2 none ⟨l.lexMarks, ()⟩).1
      (l.lex none (.ofBytes "if".toUTF8) 0 0 none ⟨l.lexMarks, ()⟩).1 := by
  obtain ⟨t, hBuild, hFacts⟩ := Option.map_eq_some_iff.mp Grammar.calls_build
  simp only [Prod.mk.injEq, decide_eq_true_eq] at hFacts
  obtain ⟨⟨hNodes, hTokens, hKeywords, hWord⟩, ⟨hRelexWord, hRelexIf⟩, hStart, hNumber, hFirst⟩ := hFacts
  have hBuild : Grammar.calls.build = .ok t := by
    cases hCase : Grammar.calls.build with
    | error e => rw [hCase] at hBuild; cases hBuild
    | ok t' => rw [hCase] at hBuild; cases hBuild; rfl
  generalize hl : Language.ofValid 0 t Blob.formatVersion = l at *
  have hTable : l.table = t := by rw [← hl]; rfl
  have hBuilt : l.BuiltFrom Grammar.calls := by rw [← hl]; exact ⟨hBuild, rfl, rfl, rfl⟩
  rw [← hTable] at hNodes hWord hStart hNumber hFirst
  have hServes : (Source.ofBytes "if".toUTF8 : Source Unit).Serves (fun _ => True) (Utf8.encode "if".toList) := by
    rw [Utf8.encode_toList]
    exact Source.serves_ofBytes _
  have hRoom (id : LexModeId) : l.lexRenewals (.ofBytes "if".toUTF8) 0 id ⟨l.lexMarks, ()⟩ < 2 ^ 32 :=
    Language.lexRenewals_lt _ _ (by decide)
  have hNode (i : Nat) (hi : i < 6) : l.table.lexNodes[i]? = [LexNode.accept ⟨1⟩, .split 2 0,
      .chars ⟨#[('a', 'z')], false⟩ 1, .accept ⟨2⟩, .split 5 3, .chars ⟨#[('0', '9')], false⟩ 4][i]? := by
    rw [← hFirst, List.getElem?_take_of_lt hi, Array.getElem?_toList]
  have hLexeme : l.table.Lexeme (l.lexMode 0).tokens (Utf8.encode "if".toList) 0 (1, ⟨1⟩) := by
    refine ⟨by rw [hTokens]; decide, 2, ['i'], 0, hStart, by simp, .of_encode rfl, ?_, ?_⟩
    · exact .chars (hNode 2 (by decide)) (by cbv) (.right (hNode 1 (by decide)) (.refl 0))
    · exact LexArena.accepted?_eq_some.mpr (hNode 0 (by decide))
  have hOnlyWord {c : Nat × Symbol} (hc : l.table.Lexeme (l.lexMode 0).tokens (Utf8.encode "if".toList) 0 c) :
      c.2 = ⟨1⟩ := by
    obtain ⟨hMem, first, text, n, hFirst, hText, hSpans, hLeads, _⟩ := hc
    rw [hTokens] at hMem
    simp only [List.mem_cons, List.not_mem_nil, or_false] at hMem
    rcases hMem with hSymbol | hSymbol
    · exact hSymbol
    · -- A number does not begin with a letter.
      rw [hSymbol, hNumber] at hFirst
      obtain rfl := Option.some.inj hFirst
      cases hLeads with
      | refl => exact absurd rfl hText
      | left hAt => cases (hNode 5 (by decide)).symm.trans hAt
      | right hAt => cases (hNode 5 (by decide)).symm.trans hAt
      | chars hAt hContains =>
        obtain ⟨rfl, rfl⟩ := LexNode.chars.inj (Option.some.inj ((hNode 5 (by decide)).symm.trans hAt))
        cases hSpans with
        | cons hDecoded =>
          have hChar : Source.decodeAt (Utf8.encode "if".toList) 0 = some ⟨'i', 1, by decide⟩ := by cbv
          obtain rfl := Option.some.inj (hChar.symm.trans hDecoded)
          have hDigit : CharClass.contains ⟨#[('0', '9')], false⟩ 'i' = false := by cbv
          cases hDigit.symm.trans hContains
  obtain ⟨_, hLexed⟩ : ∃ stop, l.Munches (Utf8.encode "if".toList) 0 0 stop
      (l.lex none (.ofBytes "if".toUTF8) 0 0 none ⟨l.lexMarks, ()⟩).1 :=
    hBuilt.munches hNodes (Language.lexAutomata_lexed_fresh hServes trivial (hRoom 0))
  have hRelex : l.canRelexAs (l.lex none (.ofBytes "if".toUTF8) 0 0 none ⟨l.lexMarks, ()⟩).1.symbol
      (l.lex none (.ofBytes "if".toUTF8) 0 0 none ⟨l.lexMarks, ()⟩).1.lexMode 2 = true := by
    generalize (l.lex none (.ofBytes "if".toUTF8) 0 0 none ⟨l.lexMarks, ()⟩).1 = token at hLexed ⊢
    cases hLexed with
    | eof hEnd => exact absurd hEnd (by decide)
    | inErrorMode _ hNone => exact absurd hLexeme (hNone _)
    | error _ hNone => exact absurd hLexeme (hNone _)
    | @inMode found _ hPicks =>
      change l.canRelexAs found.symbol 0 2 = true
      have hSymbol : found.symbol = ⟨1⟩ ∨ found.symbol = ⟨3⟩ := by
        cases hPicks with
        | best hBest => exact .inl (hOnlyWord hBest.1)
        | keyword _ _ _ hSpells => exact .inr (List.mem_singleton.mp (hKeywords ▸ hSpells.1))
      rcases hSymbol with hSymbol | hSymbol
      · rw [hSymbol]
        exact hRelexWord
      · rw [hSymbol]
        exact hRelexIf
  exact ⟨l, hBuilt, hNodes, hRoom 0, hRoom 2, hRelex,
    lex_again hBuilt hNodes hServes trivial hServes trivial 0 0 2 none none (hRoom 0) (hRoom 2) hRelex⟩

end Reparse
