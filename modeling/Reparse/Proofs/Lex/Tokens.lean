import Reparse.Proofs.Grammar.Lowering
import Reparse.Proofs.Lex.Construction
/-!
# The automata of a built table

Which automaton belongs to which terminal of a table that was built: every terminal's automaton accepts
as that terminal only, a keyword's automaton is the chain of its text, and the word token's automaton
accepts the text of every keyword.
-/
namespace Reparse
namespace Grammar

open LexArena

variable {nodes : LexArena}

theorem addAutomata_keeps {index : Nat} {patterns : List Pattern} {arena : LexArena}
    (hSize : (addAutomata index patterns arena).2.size ≤ 2 ^ 32) :
    arena.size ≤ (addAutomata index patterns arena).2.size ∧
      ∀ i, i < arena.size → (addAutomata index patterns arena).2[i]? = arena[i]? := by
  induction patterns generalizing index arena with
  | nil => exact ⟨Nat.le_refl _, fun _ _ => rfl⟩
  | cons p rest ih =>
    rw [addAutomata] at hSize ⊢
    dsimp only at hSize ⊢
    obtain ⟨hLe, hKept⟩ := ih hSize
    obtain ⟨hLt, hFirst⟩ := addToken_size_le arena (.ofIndex index) p (by omega)
    refine ⟨by omega, fun i hi => ?_⟩
    rw [hKept i (by omega), hFirst i hi]

theorem addAutomata_recognizes {index : Nat} {patterns : List Pattern} {arena : LexArena}
    (hSize : (addAutomata index patterns arena).2.size ≤ 2 ^ 32)
    (hKeeps : nodes.Keeps arena.size (addAutomata index patterns arena).2) :
    List.Forall₂ (fun (entry : Pattern × Nat) first => nodes.Recognizes first (.ofIndex entry.2) entry.1)
      (patterns.zipIdx index) (addAutomata index patterns arena).1 := by
  induction patterns generalizing index arena with
  | nil => exact .nil
  | cons p rest ih =>
    rw [addAutomata] at hSize hKeeps ⊢
    dsimp only at hSize hKeeps ⊢
    obtain ⟨hLe, hKept⟩ := addAutomata_keeps hSize
    obtain ⟨hLt, _⟩ := addToken_size_le arena (.ofIndex index) p (by omega)
    rw [List.zipIdx_cons]
    refine .cons (addToken_recognizes arena _ p (by omega) fun i hi hBound => ?_)
      (ih hSize fun i hi hBound => hKeeps i (by omega) hBound)
    rw [hKeeps i hi (by omega), hKept i hBound]

/-- The automaton of a terminal, and what the table says of it. -/
inductive Lexes (g : Grammar) (t : Table) (s : Symbol) : Prop
  | named {i : Nat} {name : String} {p : Pattern} {first : UInt32} :
    g.tokens[i]? = some (name, p) → s.index = 1 + i → t.lexOf s = ⟨some first, false, false⟩ →
      t.lexNodes.Recognizes first s p → Lexes g t s
  | literal {j : Nat} {text : String} {first : UInt32} :
    g.vocabulary.literals[j]? = some text → s.index = 1 + g.vocabulary.tokens.length + j →
      t.lexOf s = ⟨some first, true, g.isKeyword text⟩ → (t.info? s).map (·.name) = some text →
      t.lexNodes.Recognizes first s (.literal text.toList) → Lexes g t s

theorem idxOf?_of_find? {tokens : List (String × Pattern)} {more : List String} {word : String}
    {entry : String × Pattern} (hFind : tokens.find? (fun entry => entry.1 == word) = some entry) :
    ∃ i, (tokens.map (·.1) ++ more).idxOf? word = some i ∧ tokens[i]? = some entry := by
  induction tokens with
  | nil => cases hFind
  | cons first rest ih =>
    rw [List.find?_cons] at hFind
    rw [List.map_cons, List.cons_append, List.idxOf?_cons]
    split at hFind
    next hEq => exact ⟨0, by rw [hEq]; rfl, by simpa using hFind⟩
    next hNe =>
      obtain ⟨i, hi, hEntry⟩ := ih hFind
      exact ⟨i + 1, by rw [hNe, hi]; rfl, by simpa using hEntry⟩

theorem nodup_eraseDups {α : Type} [BEq α] [LawfulBEq α] : ∀ xs : List α, xs.eraseDups.Nodup
  | [] => .nil
  | x :: xs => by
    rw [List.eraseDups_cons]
    refine .cons (fun hx => ?_) (nodup_eraseDups _)
    have hMem := (List.mem_filter.mp (List.mem_eraseDups.mp hx)).2
    simp at hMem
termination_by xs => xs.length
decreasing_by
  have := List.length_filter_le (fun b => !b == x) xs
  simp only [List.length_cons]
  omega

namespace Built

variable {g : Grammar} {l : LoweredGrammar} {states : Array LoweredGrammar.ItemState} {t : Table}
  (h : g.Built l states t)
include h

theorem name_of_literal {j : Nat} {text : String} {s : Symbol} (hText : g.vocabulary.literals[j]? = some text)
    (hIndex : s.index = 1 + g.vocabulary.tokens.length + j) : (t.info? s).map (·.name) = some text := by
  have hSymbols : t.symbols = (g.symbolInfos g.vocabulary).toArray := by rw [h.table]; exact h.lowers.symbols
  have hBound := (List.getElem?_eq_some_iff.mp hText).1
  rw [Table.info?, hSymbols, List.getElem?_toArray, symbolInfos, hIndex, List.getElem?_append_left (by simp; omega),
    List.getElem?_append_right (by simp; omega)]
  simp only [List.length_cons, List.length_map]
  rw [show 1 + g.vocabulary.tokens.length + j - (g.vocabulary.tokens.length + 1) = j by omega]
  simp [hText, literalInfo]

/-- Every terminal that is lexed has an automaton of its own. -/
theorem lexes (hNodes : t.lexNodes.size ≤ 2 ^ 32) {s : Symbol} {first : UInt32}
    (hStart : (t.lexOf s).start = some first) : g.Lexes t s := by
  obtain ⟨named, anonymous, arena, hNamed, hAnonymous, hTokenLex⟩ := h.lowers.automata
  have hLexNodes : t.lexNodes = l.lexNodes := by rw [h.table]; rfl
  have hLex : t.tokenLex = (g.tokenLex g.vocabulary named anonymous).toArray := by rw [h.table]; exact hTokenLex
  have hSecondSize : (addAutomata (1 + g.vocabulary.tokens.length)
      (g.vocabulary.literals.map fun text => .literal text.toList) arena).2.size ≤ 2 ^ 32 := by
    rw [hAnonymous, ← hLexNodes]; exact hNodes
  obtain ⟨hLe, hKept⟩ := addAutomata_keeps hSecondSize
  rw [hAnonymous, ← hLexNodes] at hLe hKept
  have hFirst := addAutomata_recognizes
    (by rw [hNamed]; exact Nat.le_trans hLe hNodes) (by rw [hNamed]; exact fun i _ hi => hKept i hi)
  have hSecond := addAutomata_recognizes hSecondSize
    (by rw [hAnonymous, ← hLexNodes]; exact fun _ _ _ => rfl)
  rw [hNamed] at hFirst
  rw [hAnonymous] at hSecond
  have hTokens : g.vocabulary.tokens.length = g.tokens.length + g.externals.length := by simp [vocabulary]
  have hNamedLength : named.length = g.tokens.length := by simpa using hFirst.length_eq.symm
  have hAt : (g.tokenLex g.vocabulary named anonymous)[s.index]? = some (t.lexOf s) := by
    rw [Table.lexOf, hLex, List.getElem?_toArray] at hStart ⊢
    cases hEntry : (g.tokenLex g.vocabulary named anonymous)[s.index]? with
    | none => rw [hEntry] at hStart; cases hStart
    | some lex => rfl
  rw [tokenLex, List.cons_append, List.cons_append] at hAt
  have hWord := s.index_lt
  -- The end of the input and external tokens have no automaton.
  cases hIndex : s.index with
  | zero =>
    rw [hIndex, List.getElem?_cons_zero, Option.some.injEq] at hAt
    rw [← hAt] at hStart
    cases hStart
  | succ i =>
    rw [hIndex, List.getElem?_cons_succ, List.getElem?_append, List.getElem?_append] at hAt
    simp only [List.length_append, List.length_map, hNamedLength] at hAt
    split at hAt
    next =>
      split at hAt
      next hi =>
        obtain ⟨node, hNode, hLexOf⟩ := List.getElem?_map.symm.trans hAt |> Option.map_eq_some_iff.mp
        have hi' : i < ((g.tokens.map (·.2)).zipIdx 1).length := by simpa using hi
        have hRecognizes := hFirst.get hi' (show i < named.length by omega)
        simp only [List.get_eq_getElem, List.getElem_zipIdx, List.getElem_map] at hRecognizes
        rw [← (List.getElem?_eq_some_iff.mp hNode).2] at hLexOf
        refine .named (List.getElem?_eq_getElem hi) (by omega) hLexOf.symm ?_
        rwa [show s = Symbol.ofIndex (1 + i) by rw [← Symbol.index_inj, Symbol.index_ofIndex (by omega)]; omega]
      next =>
        rw [List.getElem?_map] at hAt
        obtain ⟨_, _, hLexOf⟩ := Option.map_eq_some_iff.mp hAt
        rw [← hLexOf] at hStart
        cases hStart
    next hi =>
      rw [List.getElem?_map] at hAt
      obtain ⟨⟨text, node⟩, hPair, hLexOf⟩ := Option.map_eq_some_iff.mp hAt
      obtain ⟨j, hj⟩ : ∃ j, i = g.tokens.length + g.externals.length + j := ⟨_, (Nat.add_sub_cancel' (Nat.le_of_not_lt hi)).symm⟩
      rw [hj, Nat.add_sub_cancel_left, List.getElem?_zip_eq_some] at hPair
      obtain ⟨hText, hNode⟩ := hPair
      obtain ⟨hTextBound, _⟩ := List.getElem?_eq_some_iff.mp hText
      obtain ⟨hNodeBound, hNodeAt⟩ := List.getElem?_eq_some_iff.mp hNode
      have hRecognizes := hSecond.get (i := j) (by simpa using hTextBound) hNodeBound
      simp only [List.get_eq_getElem, List.getElem_zipIdx, List.getElem_map, hNodeAt] at hRecognizes
      rw [(List.getElem?_eq_some_iff.mp hText).2] at hRecognizes
      refine .literal hText (by omega) hLexOf.symm (h.name_of_literal hText (by omega)) ?_
      rwa [show s = Symbol.ofIndex (1 + g.vocabulary.tokens.length + j) by
        rw [← Symbol.index_inj, Symbol.index_ofIndex (by omega)]; omega]

theorem keyword_start {k : Symbol} (hKeyword : (t.lexOf k).keyword = true) :
    ∃ first, (t.lexOf k).start = some first := by
  obtain ⟨named, anonymous, _, _, _, hTokenLex⟩ := h.lowers.automata
  have hLex : t.tokenLex = (g.tokenLex g.vocabulary named anonymous).toArray := by rw [h.table]; exact hTokenLex
  rw [← Option.isSome_iff_exists]
  rw [Table.lexOf, hLex, List.getElem?_toArray] at hKeyword ⊢
  cases hAt : (g.tokenLex g.vocabulary named anonymous)[k.index]? with
  | none => rw [hAt] at hKeyword; cases hKeyword
  | some lex =>
    rw [hAt, Option.getD_some] at hKeyword
    have hMem := List.mem_of_getElem? hAt
    simp only [tokenLex, List.mem_append, List.mem_cons, List.mem_map] at hMem
    rcases hMem with ((rfl | ⟨node, _, rfl⟩) | ⟨_, _, rfl⟩) | ⟨entry, _, rfl⟩
    · cases hKeyword
    · cases hKeyword
    · cases hKeyword
    · rfl

theorem ne_eof_of_start (hNodes : t.lexNodes.size ≤ 2 ^ 32) {s : Symbol} {first : UInt32}
    (hStart : (t.lexOf s).start = some first) : s ≠ .eof := by
  rintro rfl
  have hZero : Symbol.eof.index = 0 := rfl
  rcases h.lexes hNodes hStart with ⟨_, hIndex, _⟩ | ⟨_, hIndex, _⟩ <;> omega

/-- All ways from the first node of a terminal that accept, accept as that terminal. -/
theorem own_accept (hNodes : t.lexNodes.size ≤ 2 ^ 32) {s s' : Symbol} {first n : UInt32} {text : List Char}
    (hStart : (t.lexOf s).start = some first) (hLeads : t.lexNodes.Leads first text n)
    (hAccept : t.lexNodes.accepted? n = some s') : s' = s := by
  rcases h.lexes hNodes hStart with ⟨_, _, hLex, hRecognizes⟩ | ⟨_, _, hLex, _, hRecognizes⟩
  all_goals
    rw [hLex] at hStart
    obtain rfl := Option.some.inj hStart
    exact hRecognizes.own _ _ _ hLeads hAccept

/-- A keyword's automaton is the chain of its name. -/
theorem keyword_chain (hNodes : t.lexNodes.size ≤ 2 ^ 32) {k : Symbol} (hKeyword : (t.lexOf k).keyword = true)
    {first : UInt32} (hStart : (t.lexOf k).start = some first) :
    ∃ name n, (t.info? k).map (·.name) = some name ∧ g.isKeyword name = true ∧
      Chain t.lexNodes first name.toList n ∧ t.lexNodes[n.toNat]? = some (.accept k) := by
  rcases h.lexes hNodes hStart with ⟨_, _, hLex, _⟩ | ⟨_, _, hLex, hName, hRecognizes⟩
  · rw [hLex] at hKeyword
    cases hKeyword
  · rw [hLex] at hStart hKeyword
    obtain rfl := Option.some.inj hStart
    obtain ⟨n, hChain, hAccept⟩ := hRecognizes.literal _ rfl
    exact ⟨_, n, hName, hKeyword, hChain, hAccept⟩

theorem keyword_unique (hNodes : t.lexNodes.size ≤ 2 ^ 32) {k k' : Symbol} (hk : (t.lexOf k).keyword = true)
    (hk' : (t.lexOf k').keyword = true) (hName : (t.info? k).map (·.name) = (t.info? k').map (·.name)) : k = k' := by
  obtain ⟨_, hFirst⟩ := h.keyword_start hk
  obtain ⟨_, hFirst'⟩ := h.keyword_start hk'
  rcases h.lexes hNodes hFirst with ⟨_, _, hLex, _⟩ | ⟨hText, hIndex, _, hInfo, _⟩
  · rw [hLex] at hk
    cases hk
  · rcases h.lexes hNodes hFirst' with ⟨_, _, hLex, _⟩ | ⟨hText', hIndex', _, hInfo', _⟩
    · rw [hLex] at hk'
      cases hk'
    · obtain rfl := Option.some.inj (hInfo.symm.trans (hName.trans hInfo'))
      have hBound := (List.getElem?_eq_some_iff.mp hText).1
      have hSame := (List.getElem?_inj hBound (nodup_eraseDups _)).mp (hText.trans hText'.symm)
      exact Symbol.index_inj.mp (by omega)

/-- The word token is the first one of its name, and its pattern matches the keywords. -/
theorem word_pattern {text : String} (hKeyword : g.isKeyword text = true) :
    ∃ word i name p, t.word = some word ∧ word.index = 1 + i ∧ g.tokens[i]? = some (name, p) ∧
      p.matchesAll text.toList = true := by
  rw [isKeyword] at hKeyword
  cases hWord : g.word with
  | none => rw [hWord] at hKeyword; cases hKeyword
  | some word =>
    rw [hWord] at hKeyword
    obtain ⟨⟨name, p⟩, hFind, hMatches⟩ := (Option.any_eq_true _ _).mp hKeyword
    obtain ⟨i, hi, hEntry⟩ := idxOf?_of_find? hFind
    have hToken : g.vocabulary.token? word = some (.ofIndex (1 + i)) := by
      rw [Vocabulary.token?, vocabulary, hi]
      rfl
    have hLower := h.lowers.word
    rw [hWord] at hLower
    have hResolve : g.vocabulary.resolve word = .ok (.ofIndex (1 + i)) := by
      rw [Vocabulary.resolve, hToken]
      rfl
    simp only [Option.mapM_some, hResolve] at hLower
    have hTable : t.word = some (.ofIndex (1 + i)) := by
      rw [h.table]
      exact (Except.ok.inj hLower).symm
    have hBound := (List.getElem?_eq_some_iff.mp hEntry).1
    have hCount := h.symbolCount_lt
    have hLength : g.vocabulary.tokens.length = g.tokens.length + g.externals.length := by simp [vocabulary]
    rw [Vocabulary.symbolCount, Vocabulary.terminalCount] at hCount
    exact ⟨_, i, name, p, hTable, Symbol.index_ofIndex (by omega), hEntry, hMatches⟩

/-- The word token's automaton accepts the text of every keyword. -/
theorem word_covers (hNodes : t.lexNodes.size ≤ 2 ^ 32) {text : String} (hKeyword : g.isKeyword text = true)
    {word : Symbol} (hWord : t.word = some word) {first : UInt32} (hStart : (t.lexOf word).start = some first) :
    ∃ n, t.lexNodes.Leads first text.toList n ∧ t.lexNodes.accepted? n = some word := by
  obtain ⟨word', i, name, p, hWord', hIndex, hEntry, hMatches⟩ := h.word_pattern hKeyword
  obtain rfl := Option.some.inj (hWord.symm.trans hWord')
  have hBound := (List.getElem?_eq_some_iff.mp hEntry).1
  have hLength : g.vocabulary.tokens.length = g.tokens.length + g.externals.length := by simp [vocabulary]
  rcases h.lexes hNodes hStart with ⟨hEntry', hIndex', hLex, hRecognizes⟩ | ⟨_, hIndex', _⟩
  · rename_i i' _ _ _
    obtain rfl : i' = i := by omega
    obtain ⟨rfl, rfl⟩ := Prod.mk.inj (Option.some.inj (hEntry.symm.trans hEntry'))
    rw [hLex] at hStart
    obtain rfl := Option.some.inj hStart
    exact hRecognizes.complete _ (Pattern.matches_of_matchesAll hMatches)
  · omega

end Built
end Grammar
end Reparse
