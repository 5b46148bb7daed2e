import Reparse.Proofs.Lex.Encoding
import Reparse.Proofs.Lex.Munch
/-!
# Tokens depend on their windows

Lexing a token looks at nothing past its recorded lookahead, whatever was tried on the way: the run of the
error mode reads as far as that of any other mode, and the run of the keywords no further than the word.
So a text with the same bytes up to there, ends of input included, has the same token, as long as 32 bits
hold what is recorded.
-/
namespace Reparse

/-- The texts hold the same byte at each offset from `pos` up to `stop`, or both have ended. -/
def Agree (x y : List UInt8) (pos stop : Nat) : Prop := ∀ i, pos ≤ i → i ≤ stop → x[i]? = y[i]?

variable {x y : List UInt8} {pos stop : Nat}

theorem Agree.mono {stop' : Nat} (h : Agree x y pos stop) (hStop : stop' ≤ stop) : Agree x y pos stop' :=
  fun i hi hi' => h i hi (Nat.le_trans hi' hStop)

theorem Agree.length_le_iff (h : Agree x y pos stop) {i : Nat} (hi : pos ≤ i) (hi' : i ≤ stop) :
    x.length ≤ i ↔ y.length ≤ i := by
  rw [← List.getElem?_eq_none_iff, ← List.getElem?_eq_none_iff, h i hi hi']

theorem Agree.pos_lt (h : Agree x y pos stop) (hStop : pos ≤ stop) (hx : pos < x.length) : pos < y.length :=
  Nat.lt_of_not_le fun hy => Nat.not_le.mpr hx ((h.length_le_iff (Nat.le_refl _) hStop).mpr hy)

theorem Spans.transfer {text : List Char} {last : Nat} (h : Spans x pos text stop) (hBytes : WellFormed x pos)
    (hAgree : Agree x y pos last) (hStop : stop ≤ last) : Spans y pos text stop := by
  obtain ⟨hEnd, rest, hRest⟩ := h.encode_eq hBytes
  rw [hEnd]
  suffices hSame : y.drop pos = Utf8.encode text ++ (y.drop pos).drop (Utf8.encode text).length from .of_encode hSame
  have hTake : (y.drop pos).take (Utf8.encode text).length = (x.drop pos).take (Utf8.encode text).length := by
    refine List.ext_getElem? fun i => ?_
    by_cases hi : i < (Utf8.encode text).length
    · rw [List.getElem?_take_of_lt hi, List.getElem?_take_of_lt hi, List.getElem?_drop, List.getElem?_drop,
        hAgree (pos + i) (by omega) (by omega)]
    · rw [List.getElem?_take_eq_none (by omega), List.getElem?_take_eq_none (by omega)]
  calc y.drop pos = (y.drop pos).take (Utf8.encode text).length ++ (y.drop pos).drop (Utf8.encode text).length :=
        (List.take_append_drop _ _).symm
    _ = _ := by rw [hTake, hRest, List.take_left]

namespace Table

variable {t : Table} {tokens : List Symbol} {text : List Char}

theorem Reads.transfer (h : t.Reads tokens x pos text stop) (hBytes : WellFormed x pos) (hAgree : Agree x y pos stop) :
    t.Reads tokens y pos text stop := by
  refine ⟨h.spans.transfer hBytes hAgree (Nat.le_refl _), h.canRead, fun hCan => ?_⟩
  rw [Source.decodeAt_eq_none, ← hAgree.length_le_iff h.spans.le (Nat.le_refl _), ← Source.decodeAt_eq_none]
  exact h.ended hCan

theorem Reads.match_iff (h : t.Reads tokens x pos text stop) (hBytes : WellFormed x pos)
    (hAgree : Agree x y pos stop) (c : Nat × Symbol) : t.Match tokens x pos c ↔ t.Match tokens y pos c := by
  have hOther := h.transfer hBytes hAgree
  constructor
  · rintro hMatch
    have hLe := h.match_le hMatch
    obtain ⟨front, hFront, hSpans, hReaches⟩ := hMatch
    exact ⟨front, hFront, hSpans.transfer hBytes hAgree hLe, hReaches⟩
  · rintro hMatch
    have hLe := hOther.match_le hMatch
    obtain ⟨front, hFront, hSpans, hReaches⟩ := hMatch
    -- The match lies on what is read, and that stands in both texts.
    have hPrefix : ∃ back, text = front ++ back := by
      rcases hSpans.comparable hOther.spans with ⟨back, hText, _⟩ | ⟨more, hText, hMore⟩
      · exact ⟨back, hText⟩
      · cases hMore with
        | nil => exact ⟨[], by simp [hText]⟩
        | @cons _ _ d _ _ hRest =>
          have := hRest.le
          have := d.width_pos
          omega
    obtain ⟨back, rfl⟩ := hPrefix
    obtain ⟨mid, hMid, hBack⟩ := h.spans.split
    obtain rfl := (hMid.transfer hBytes hAgree hBack.le).stop_unique hSpans
    exact ⟨front, hFront, hMid, hReaches⟩

theorem Longest.transfer {found : Option Found} (h : t.Longest tokens x pos found)
    (hReads : t.Reads tokens x pos text stop) (hBytes : WellFormed x pos) (hAgree : Agree x y pos stop) :
    t.Longest tokens y pos found := by
  obtain ⟨text', stop', hReads', hBest, hFurthest⟩ := h
  obtain ⟨rfl, rfl⟩ := hReads.unique hReads'
  exact ⟨text, stop, hReads.transfer hBytes hAgree, hBest.congr (hReads.match_iff hBytes hAgree), hFurthest⟩

theorem Longest.furthest_le {found : Found} (h : t.Longest tokens x pos (some found)) (hPos : pos ≤ x.length) :
    found.furthest ≤ x.length := by
  obtain ⟨_, _, hReads, _, hFurthest⟩ := h
  rw [hFurthest found rfl]
  exact hReads.spans.le_length hPos

theorem CanRead.mono {more : List Symbol} (h : t.CanRead tokens text) (hMore : ∀ s ∈ tokens, s ∈ more) :
    t.CanRead more text := by
  obtain ⟨n, ⟨token, hToken, hFirst⟩, hNode⟩ := h
  exact ⟨n, ⟨token, hMore token hToken, hFirst⟩, hNode⟩

end Table

theorem Found.furthest_le_orKeyword (found : Found) (keyword : Option Found) :
    found.furthest ≤ (found.orKeyword keyword).furthest := by
  cases keyword with
  | none => exact Nat.le_refl _
  | some keyword =>
    rw [Found.orKeyword]
    split
    · exact Nat.le_max_left _ _
    · exact Nat.le_refl _

namespace Language

variable {g : Grammar} {l : Language}

/-- Where a keyword can be read on, the word token can. -/
theorem BuiltFrom.word_canRead (h : l.BuiltFrom g) (hNodes : l.table.lexNodes.size ≤ 2 ^ 32) {word : Symbol}
    (hWord : l.table.word = some word) {tokens : List Symbol} (hMem : word ∈ tokens) {front : List Char}
    (hCan : l.table.CanRead l.keywords front) : l.table.CanRead tokens front := by
  obtain ⟨_, _, hBuilt⟩ := h.built
  obtain ⟨n, ⟨k, hk, first, hFirst, hLeads⟩, hNode⟩ := hCan
  obtain ⟨name, last, _, hKeyword, hChain, hEnd⟩ := hBuilt.keyword_chain hNodes (h.mem_keywords hk) hFirst
  obtain ⟨firstWord, hFirstWord⟩ := Option.isSome_iff_exists.mp (h.valid.word_pattern hWord).2.1
  obtain ⟨_, hLeadsWord, _⟩ := hBuilt.word_covers hNodes hKeyword hWord hFirstWord
  rcases hChain.leads_cases hLeads with ⟨c, back, hName, _⟩ | ⟨more, _, hMore⟩
  · rw [hName] at hLeadsWord
    exact Table.Reaches.canRead ⟨word, hMem, firstWord, hFirstWord, hLeadsWord⟩
  · -- The accepting node at the end of the chain consumes nothing.
    obtain ⟨_, _, hChars⟩ := LexArena.isConsuming_iff.mp hNode
    cases hMore with
    | refl => rw [hEnd] at hChars; cases hChars
    | left hSplit => rw [hEnd] at hSplit; cases hSplit
    | right hSplit => rw [hEnd] at hSplit; cases hSplit
    | chars hNext => rw [hEnd] at hNext; cases hNext

theorem BuiltFrom.resolved_transfer (h : l.BuiltFrom g) (hNodes : l.table.lexNodes.size ≤ 2 ^ 32)
    {tokens : List Symbol} {found resolved : Found} (hLongest : l.table.Longest tokens x pos (some found))
    (hResolved : l.Resolved x pos found resolved) (hBytes : WellFormed x pos)
    (hAgree : Agree x y pos found.furthest) : l.Resolved y pos found resolved := by
  rw [Resolved] at hResolved ⊢
  split at hResolved
  next hWord =>
    rw [if_pos hWord]
    obtain ⟨keyword, hKeyword, rfl⟩ := hResolved
    have hMem := ((h.match_iff hNodes).mp hLongest.best.1).1
    obtain ⟨_, stop, hReads, _, hFurthest⟩ := hLongest
    obtain ⟨_, _, hKeywordReads, _⟩ := id hKeyword
    have hLe := hKeywordReads.stop_le hReads fun front => h.word_canRead hNodes hWord hMem
    rw [← hFurthest found rfl] at hLe
    exact ⟨keyword, hKeyword.transfer hKeywordReads hBytes (hAgree.mono hLe), rfl⟩
  next hNot => rwa [if_neg hNot]

theorem Resolved.furthest_le {found resolved : Found} (h : l.Resolved x pos found resolved) :
    found.furthest ≤ resolved.furthest := by
  rw [Resolved] at h
  split at h
  · obtain ⟨keyword, _, rfl⟩ := h
    exact found.furthest_le_orKeyword keyword
  · rw [h]

theorem Resolved.unique {found a b : Found} (ha : l.Resolved x pos found a) (hb : l.Resolved x pos found b) :
    a = b := by
  rw [Resolved] at ha hb
  split at ha
  next hWord =>
    rw [if_pos hWord] at hb
    obtain ⟨keyword, hKeyword, rfl⟩ := ha
    obtain ⟨keyword', hKeyword', rfl⟩ := hb
    rw [hKeyword.unique hKeyword']
  next hNot =>
    rw [if_neg hNot] at hb
    exact ha.trans hb.symm

theorem Searched.unique {mode : LexMode} {id : LexModeId} {a b : Option Token} (ha : l.Searched x pos mode id a)
    (hb : l.Searched x pos mode id b) : a = b := by
  cases ha with
  | found hLongest hResolved =>
    cases hb with
    | found hLongest' hResolved' =>
      obtain rfl := Option.some.inj (hLongest.unique hLongest')
      rw [hResolved.unique hResolved']
    | none hNone => cases hLongest.unique hNone
  | none hNone =>
    cases hb with
    | found hLongest => cases hNone.unique hLongest
    | none => rfl

theorem Lexed.unique {id : LexModeId} {a b : Token} (ha : l.Lexed x pos id a) (hb : l.Lexed x pos id b)
    (hError : a.isError = false) : b = a := by
  cases ha with
  | eof hEnd =>
    cases hb with
    | eof => rfl
    | inMode hWithin => exact absurd hWithin (Nat.not_lt.mpr hEnd)
    | inErrorMode hWithin => exact absurd hWithin (Nat.not_lt.mpr hEnd)
    | error hWithin => exact absurd hWithin (Nat.not_lt.mpr hEnd)
  | inMode hWithin hFirst =>
    cases hb with
    | eof hEnd => exact absurd hWithin (Nat.not_lt.mpr hEnd)
    | inMode _ hFirst' => exact Option.some.inj (hFirst'.unique hFirst)
    | inErrorMode _ hFirst' => cases hFirst.unique hFirst'
    | error _ hFirst' => cases hFirst.unique hFirst'
  | inErrorMode hWithin hFirst hSecond =>
    cases hb with
    | eof hEnd => exact absurd hWithin (Nat.not_lt.mpr hEnd)
    | inMode _ hFirst' => cases hFirst.unique hFirst'
    | inErrorMode _ _ hSecond' => exact Option.some.inj (hSecond'.unique hSecond)
    | error _ _ hSecond' => cases hSecond.unique hSecond'
  | error => cases hError

theorem Resolved.furthest_le_length {tokens : List Symbol} {found resolved : Found}
    (hLongest : l.table.Longest tokens x pos (some found)) (h : l.Resolved x pos found resolved) (hPos : pos ≤ x.length) :
    resolved.furthest ≤ x.length := by
  have hFound := hLongest.furthest_le hPos
  rw [Resolved] at h
  split at h
  · obtain ⟨keyword, hKeyword, rfl⟩ := h
    cases keyword with
    | none => exact hFound
    | some keyword =>
      rw [Found.orKeyword]
      split
      · exact Nat.max_le.mpr ⟨hFound, hKeyword.furthest_le hPos⟩
      · exact hFound
  · rw [h]
    exact hFound

/-- In a text below 2^32 bytes the token of a search ends where the match does and records how far the search went. -/
theorem BuiltFrom.recorded (h : l.BuiltFrom g) (hNodes : l.table.lexNodes.size ≤ 2 ^ 32) {tokens : List Symbol}
    {found resolved : Found} (hLongest : l.table.Longest tokens x pos (some found))
    (hResolved : l.Resolved x pos found resolved) (hPos : pos < x.length) (hShort : x.length < 2 ^ 32) (id : LexModeId) :
    pos < (tokenOf pos resolved id).stop ∧
      found.furthest ≤ (tokenOf pos resolved id).stop + (tokenOf pos resolved id).lookahead := by
  have hPicks := h.picks hNodes hLongest hResolved
  have hLt : pos < resolved.stop := hPicks.lt
  have hLe : resolved.stop ≤ x.length := hPicks.le_length (Nat.le_of_lt hPos)
  have hFurthest := hResolved.furthest_le_length hLongest (Nat.le_of_lt hPos)
  have hFound := hResolved.furthest_le
  rw [Token.stop]
  dsimp only [tokenOf]
  rw [narrow_of_lt (by omega), narrow_of_lt (by omega), narrow_of_lt (by omega)]
  omega

section Transfer

variable (h : l.BuiltFrom g) (hNodes : l.table.lexNodes.size ≤ 2 ^ 32) (hShort : x.length < 2 ^ 32)
  (hWithin : pos < x.length)
include h hNodes hShort hWithin

/-- A successful search stands in every text that agrees on the token's window. -/
theorem BuiltFrom.searched_transfer {mode : LexMode} {id : LexModeId} {token : Token}
    (hSearched : l.Searched x pos mode id (some token)) (hBytes : WellFormed x pos)
    (hAgree : Agree x y pos (token.stop + token.lookahead)) : l.Searched y pos mode id (some token) := by
  cases hSearched with
  | @found found resolved hLongest hResolved =>
    obtain ⟨_, hEnd⟩ := h.recorded hNodes hLongest hResolved hWithin hShort id
    have hFound := hAgree.mono hEnd
    have hCopy := hLongest
    obtain ⟨_, stop, hReads, _, hFurthest⟩ := hCopy
    have hFurthest := hFurthest found rfl
    exact .found (hLongest.transfer hReads hBytes (hFurthest ▸ hFound))
      (h.resolved_transfer hNodes hLongest hResolved hBytes hFound)

/-- A search that fails looks no further than one that succeeds with more tokens. -/
theorem BuiltFrom.searched_none_transfer {mode more : LexMode} {id id' : LexModeId} {token : Token}
    (hNone : l.Searched x pos mode id none) (hSearched : l.Searched x pos more id' (some token))
    (hMore : ∀ s ∈ mode.tokens, s ∈ more.tokens) (hBytes : WellFormed x pos)
    (hAgree : Agree x y pos (token.stop + token.lookahead)) : l.Searched y pos mode id none := by
  cases hNone with
  | none hShortest =>
    have hCopy := hShortest
    obtain ⟨_, stop, hReads, _⟩ := hCopy
    cases hSearched with
    | @found found resolved hLongest hResolved =>
      obtain ⟨_, hEnd⟩ := h.recorded hNodes hLongest hResolved hWithin hShort id'
      obtain ⟨_, stop', hReads', _, hFurthest⟩ := hLongest
      have hLe := hReads.stop_le hReads' fun _ hCan => hCan.mono hMore
      rw [← hFurthest found rfl] at hLe
      exact .none (hShortest.transfer hReads hBytes (hAgree.mono (Nat.le_trans hLe hEnd)))

theorem BuiltFrom.searched_within {mode : LexMode} {id : LexModeId} {token : Token}
    (hSearched : l.Searched x pos mode id (some token)) (hAgree : Agree x y pos (token.stop + token.lookahead)) :
    pos < y.length := by
  cases hSearched with
  | found hLongest hResolved =>
    obtain ⟨hLt, _⟩ := h.recorded hNodes hLongest hResolved hWithin hShort id
    exact hAgree.pos_lt (by omega) hWithin

end Transfer

/-- A token that is no error is the token of every text that agrees on its window. -/
theorem BuiltFrom.lexed_transfer (h : l.BuiltFrom g) (hNodes : l.table.lexNodes.size ≤ 2 ^ 32) {id : LexModeId}
    {token : Token} (hLexed : l.Lexed x pos id token) (hError : token.isError = false) (hBytes : WellFormed x pos)
    (hShort : x.length < 2 ^ 32) (hPos : pos < 2 ^ 32) (hAgree : Agree x y pos (token.stop + token.lookahead)) :
    l.Lexed y pos id token := by
  cases hLexed with
  | eof hEnd =>
    have hStop : pos ≤ (endToken pos id).stop + (endToken pos id).lookahead := by
      simp [endToken, Token.stop, narrow_of_lt hPos]
    exact .eof ((hAgree.length_le_iff (Nat.le_refl _) hStop).mp hEnd)
  | inMode hWithin hFirst =>
    exact .inMode (h.searched_within hNodes hShort hWithin hFirst hAgree)
      (h.searched_transfer hNodes hShort hWithin hFirst hBytes hAgree)
  | inErrorMode hWithin hFirst hSecond =>
    refine .inErrorMode (h.searched_within hNodes hShort hWithin hSecond hAgree)
      (h.searched_none_transfer hNodes hShort hWithin hFirst hSecond (fun s hs => ?_) hBytes hAgree)
      (h.searched_transfer hNodes hShort hWithin hSecond hBytes hAgree)
    rw [h.lexMode_error]
    exact h.lexMode_subset id hs
  | error => cases hError

end Language

variable {σ τ : Type}

/-- A token depends only on its window. If lexing a well-formed text below 2^32 bytes at a character boundary gives
a token that is no error, then lexing any text that has the same bytes from there up to the end of the token's
lookahead, that offset and the ends of the texts included, gives the token again, whatever the sources cut the texts
into. -/
theorem lex_window {g : Grammar} {l : Language} (h : l.BuiltFrom g) (hNodes : l.table.lexNodes.size ≤ 2 ^ 32)
    {text : List Char} (hShort : (Utf8.encode text).length < 2 ^ 32) {other : List UInt8} {pos : Nat}
    (hPos : Utf8.IsBoundary text pos) {src : Source σ}
    {Ok : σ → Prop} (hServes : src.Serves Ok (Utf8.encode text)) {input : σ} (hInput : Ok input) {src' : Source τ}
    {Ok' : τ → Prop} (hServes' : src'.Serves Ok' other) {input' : τ} (hInput' : Ok' input') (id : LexModeId)
    (state state' : Option (List UInt8)) (hRoom : l.lexRenewals src pos id ⟨l.lexMarks, input⟩ < 2 ^ 32)
    (hRoom' : l.lexRenewals src' pos id ⟨l.lexMarks, input'⟩ < 2 ^ 32)
    (hError : (l.lex none src pos id state ⟨l.lexMarks, input⟩).1.isError = false)
    (hAgree : Agree (Utf8.encode text) other pos ((l.lex none src pos id state ⟨l.lexMarks, input⟩).1.stop +
      (l.lex none src pos id state ⟨l.lexMarks, input⟩).1.lookahead)) :
    (l.lex none src' pos id state' ⟨l.lexMarks, input'⟩).1 = (l.lex none src pos id state ⟨l.lexMarks, input⟩).1 := by
  have hLexed := Language.lexAutomata_lexed_fresh hServes hInput hRoom
  have hLexed' := Language.lexAutomata_lexed_fresh hServes' hInput' hRoom'
  have hWithin : pos < 2 ^ 32 := Nat.lt_of_le_of_lt hPos.le_length hShort
  exact (h.lexed_transfer hNodes hLexed hError (wellFormed_of_isBoundary hPos) hShort hWithin hAgree).unique hLexed' hError

/-- The texts `if ab` and `if ac` differ right behind the window of their first token, which is the keyword in both. -/
theorem words_window : Language.words.BuiltFrom .words ∧ Language.words.table.lexNodes.size ≤ 2 ^ 32 ∧
    (Utf8.encode "if ab".toList).length < 2 ^ 32 ∧ Utf8.IsBoundary "if ab".toList 0 ∧
    Language.words.lexRenewals (.ofBytes "if ab".toUTF8) 0 errorLexMode ⟨Language.words.lexMarks, ()⟩ < 2 ^ 32 ∧
    Language.words.lexRenewals (.ofBytes "if ac".toUTF8) 0 errorLexMode ⟨Language.words.lexMarks, ()⟩ < 2 ^ 32 ∧
    (Language.words.lex none (.ofBytes "if ab".toUTF8) 0 errorLexMode none ⟨Language.words.lexMarks, ()⟩).1 =
      ⟨⟨2⟩, 0, 2, 1, errorLexMode, false, none⟩ ∧
    Agree (Utf8.encode "if ab".toList) "if ac".toUTF8.data.toList 0 3 ∧
    (Utf8.encode "if ab".toList)[4]? ≠ "if ac".toUTF8.data.toList[4]? ∧
    (Language.words.lex none (.ofBytes "if ac".toUTF8) 0 errorLexMode none ⟨Language.words.lexMarks, ()⟩).1 =
      ⟨⟨2⟩, 0, 2, 1, errorLexMode, false, none⟩ := by
  have hNodes : Language.words.table.lexNodes.size ≤ 2 ^ 32 := by decide
  have hShort : (Utf8.encode "if ab".toList).length < 2 ^ 32 := by decide
  have hBoundary : Utf8.IsBoundary "if ab".toList 0 := ⟨[], "if ab".toList, rfl, rfl⟩
  have hServes : (Source.ofBytes "if ab".toUTF8 : Source Unit).Serves (fun _ => True) (Utf8.encode "if ab".toList) := by
    rw [Utf8.encode_toList]
    exact Source.serves_ofBytes _
  have hRoom (text : String) (hText : text.toUTF8.size + 2 < 2 ^ 16) :
      Language.words.lexRenewals (.ofBytes text.toUTF8) 0 errorLexMode ⟨Language.words.lexMarks, ()⟩ < 2 ^ 32 :=
    Language.lexRenewals_lt _ _ hText
  have hToken : (Language.words.lex none (.ofBytes "if ab".toUTF8) 0 errorLexMode none ⟨Language.words.lexMarks, ()⟩).1 =
      ⟨⟨2⟩, 0, 2, 1, errorLexMode, false, none⟩ := by decide +kernel
  have hAgree : Agree (Utf8.encode "if ab".toList) "if ac".toUTF8.data.toList 0 3 := by
    intro i _ hi
    interval_cases i <;> rfl
  have hSame := lex_window Language.words_builtFrom hNodes hShort hBoundary hServes trivial
    (Source.serves_ofBytes "if ac".toUTF8) trivial errorLexMode none none (hRoom "if ab" (by decide))
    (hRoom "if ac" (by decide)) (by rw [hToken]) (by rw [hToken]; exact hAgree)
  exact ⟨Language.words_builtFrom, hNodes, hShort, hBoundary, hRoom "if ab" (by decide), hRoom "if ac" (by decide),
    hToken, hAgree, by decide, hSame.trans hToken⟩

/-- At 2^32, where 2^32 letters end, the lexer finds an end of the input at 0. No offset is between its place and its end,
and with one more letter there is a token at 2^32 that is not the end of the input. -/
theorem words_window_long : ∃ (x y : List Char) (token : Token), x = List.replicate (2 ^ 32) 'b' ∧
    y = List.replicate (2 ^ 32 + 1) 'b' ∧ Utf8.IsBoundary x (2 ^ 32) ∧ Utf8.IsBoundary y (2 ^ 32) ∧
    Language.words.lexRenewals (.ofBytes ⟨(Utf8.encode x).toArray⟩) (2 ^ 32) errorLexMode ⟨Language.words.lexMarks, ()⟩ < 2 ^ 32 ∧
    Language.words.lexRenewals (.ofBytes ⟨(Utf8.encode y).toArray⟩) (2 ^ 32) errorLexMode ⟨Language.words.lexMarks, ()⟩ < 2 ^ 32 ∧
    token = (Language.words.lex none (.ofBytes ⟨(Utf8.encode x).toArray⟩) (2 ^ 32) errorLexMode none
      ⟨Language.words.lexMarks, ()⟩).1 ∧
    token.isError = false ∧ Agree (Utf8.encode x) (Utf8.encode y) (2 ^ 32) (token.stop + token.lookahead) ∧
    (Language.words.lex none (.ofBytes ⟨(Utf8.encode y).toArray⟩) (2 ^ 32) errorLexMode none
      ⟨Language.words.lexMarks, ()⟩).1 ≠ token := by
  have hEncode (n : Nat) : (Utf8.encode (List.replicate n 'b')).length = n := by
    rw [Utf8.encode, List.length_flatMap, List.map_replicate, List.sum_replicate]
    exact Nat.mul_one n
  have hServes (text : List Char) := Source.serves_ofBytes (σ := Unit) ⟨(Utf8.encode text).toArray⟩
  have hRoom (text : List Char) (hLength : (Utf8.encode text).length ≤ 2 ^ 32 + 1) : Language.words.lexRenewals
      (.ofBytes ⟨(Utf8.encode text).toArray⟩) (2 ^ 32) errorLexMode ⟨Language.words.lexMarks, ()⟩ < 2 ^ 32 := by
    apply Language.lexRenewals_lt
    change (Utf8.encode text).length - 2 ^ 32 + 2 < 2 ^ 16
    omega
  obtain ⟨x, hx⟩ : ∃ x, x = List.replicate (2 ^ 32) 'b' := ⟨_, rfl⟩
  obtain ⟨y, hy⟩ : ∃ y, y = List.replicate (2 ^ 32 + 1) 'b' := ⟨_, rfl⟩
  have hLength : (Utf8.encode x).length = 2 ^ 32 := by rw [hx, hEncode]
  have hLength' : (Utf8.encode y).length = 2 ^ 32 + 1 := by rw [hy, hEncode]
  have hBoundary : y = x ++ ['b'] := by rw [hx, hy, List.replicate_succ']
  have hEnd : (Source.ofBytes ⟨(Utf8.encode x).toArray⟩ : Source Unit).charAt (2 ^ 32) () = (none, ()) :=
    Prod.ext (((hServes x).charAt_eq trivial).1.trans (Source.decodeAt_eq_none.mpr (Nat.le_of_eq hLength))) rfl
  have hToken : (Language.words.lex none (.ofBytes ⟨(Utf8.encode x).toArray⟩) (2 ^ 32) errorLexMode none
      ⟨Language.words.lexMarks, ()⟩).1 = Language.endToken (2 ^ 32) errorLexMode := by
    change (Language.words.lexAutomata _ _ _ _).1 = _
    rw [Language.lexAutomata, hEnd]
  refine ⟨x, y, _, hx, hy, ⟨x, [], by simp, hLength.symm⟩, ⟨x, ['b'], hBoundary, hLength.symm⟩, hRoom x (by omega),
    hRoom y (by omega), hToken.symm, rfl, ?_, ?_⟩
  · intro i hi hBound
    have hZero : (Language.endToken (2 ^ 32) errorLexMode).stop + (Language.endToken (2 ^ 32) errorLexMode).lookahead = 0 :=
      rfl
    omega
  · intro hSame
    have hLexed := Language.lexAutomata_lexed_fresh (hServes y) trivial (hRoom y (by omega))
    obtain ⟨stop, hMunches⟩ := Language.words_builtFrom.munches (by decide) hLexed
    have hEof : (Utf8.encode y).length ≤ 2 ^ 32 := (Language.words_builtFrom.munches_eof_iff (by decide) hMunches).mp
      ⟨congrArg Token.symbol hSame, congrArg Token.size hSame⟩
    omega

end Reparse
