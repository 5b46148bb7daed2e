import Reparse.Lex.Token
import Reparse.Proofs.Language
import Reparse.Proofs.Lex.Construction
import Reparse.Proofs.Lex.Runs
/-!
# Bounds of tokens

Whatever the marks of the lexer hold, a token starts where it was asked for and lies within the text, and the
end of the input is found at the end only. Without a scanner every other token has a size.
-/
namespace Reparse

/-! ## Accepted symbols -/

namespace LexArena

/-- Every accepting node accepts as a symbol with the property. -/
def AcceptsOnly (P : Symbol → Prop) (nodes : LexArena) : Prop := ∀ s, .accept s ∈ nodes → P s

variable {P : Symbol → Prop} {arena : LexArena}

theorem AcceptsOnly.push (h : arena.AcceptsOnly P) {node : LexNode} (hNode : ∀ s, node = .accept s → P s) :
    AcceptsOnly P (arena.push node) := by
  intro s hs
  rcases Array.mem_push.mp hs with hs | hs
  · exact h s hs
  · exact hNode s hs.symm

theorem AcceptsOnly.set (h : arena.AcceptsOnly P) (i : Nat) (a b : UInt32) :
    AcceptsOnly P (arena.setIfInBounds i (.split a b)) := by
  intro s hs
  rcases Array.mem_or_eq_of_mem_setIfInBounds hs with hs | hs
  · exact h s hs
  · cases hs

theorem addLiteral_acceptsOnly (h : arena.AcceptsOnly P) (next : UInt32) (text : List Char) :
    (arena.addLiteral next text).2.AcceptsOnly P := by
  induction text with
  | nil => exact h
  | cons x rest ih => exact ih.push (by simp)

theorem addSplits_acceptsOnly (h : arena.AcceptsOnly P) (next : UInt32) (entries : List UInt32) :
    (arena.addSplits next entries).2.AcceptsOnly P := by
  fun_induction addSplits arena next entries with
  | case1 => exact h
  | case2 => exact h
  | case3 entry rest hRest others arena' hOthers ih =>
    rw [hOthers] at ih
    exact ih.push (by simp)

mutual

theorem addPattern_acceptsOnly {arena : LexArena} (h : arena.AcceptsOnly P) (next : UInt32) :
    ∀ p : Pattern, (arena.addPattern next p).2.AcceptsOnly P
  | .literal text => by
    rw [addPattern]
    exact addLiteral_acceptsOnly h next text
  | .chars cls => by
    rw [addPattern]
    exact h.push (by simp)
  | .seq items => by
    rw [addPattern]
    exact addSeq_acceptsOnly h next items
  | .choice items => by
    rw [addPattern]
    exact addSplits_acceptsOnly (addChoices_acceptsOnly h next items) next _
  | .optional item => by
    rw [addPattern]
    exact (addPattern_acceptsOnly h next item).push (by simp)
  | .star item => by
    rw [addPattern]
    exact (addPattern_acceptsOnly (h.push (by simp)) _ item).set _ _ _
  | .plus item => by
    rw [addPattern]
    exact (addPattern_acceptsOnly (h.push (by simp)) _ item).set _ _ _

theorem addSeq_acceptsOnly {arena : LexArena} (h : arena.AcceptsOnly P) (next : UInt32) :
    ∀ items : List Pattern, (arena.addSeq next items).2.AcceptsOnly P
  | [] => by
    rw [addSeq]
    exact h
  | p :: rest => by
    rw [addSeq]
    exact addPattern_acceptsOnly (addSeq_acceptsOnly h next rest) _ p

theorem addChoices_acceptsOnly {arena : LexArena} (h : arena.AcceptsOnly P) (next : UInt32) :
    ∀ items : List Pattern, (arena.addChoices next items).2.AcceptsOnly P
  | [] => by
    rw [addChoices]
    exact h
  | p :: rest => by
    rw [addChoices]
    exact addChoices_acceptsOnly (addPattern_acceptsOnly h next p) next rest

end

theorem addAutomata_acceptsOnly (index : Nat) (patterns : List Pattern) {arena : LexArena} (h : arena.AcceptsOnly P)
    (hSymbols : ∀ i, index ≤ i → i < index + patterns.length → P (.ofIndex i)) :
    (Grammar.addAutomata index patterns arena).2.AcceptsOnly P := by
  induction patterns generalizing index arena with
  | nil => exact h
  | cons p rest ih =>
    rw [List.length_cons] at hSymbols
    have hAccept : AcceptsOnly P (arena.push (.accept (.ofIndex index))) :=
      h.push fun s hs => by
        obtain rfl := LexNode.accept.inj hs
        exact hSymbols index (Nat.le_refl _) (by omega)
    exact ih (index + 1) (addPattern_acceptsOnly hAccept _ p) fun i hi hBound => hSymbols i (by omega) (by omega)

end LexArena

/-- A terminal that is not the end of the input. -/
def Table.IsToken (t : Table) (s : Symbol) : Prop := t.isTerminal s = true ∧ s ≠ .eof

namespace Grammar.Built

variable {g : Grammar} {l : LoweredGrammar} {states : Array LoweredGrammar.ItemState} {t : Table}

/-- The automata accept as terminals, and never as the end of the input. -/
theorem acceptsOnly (h : g.Built l states t) : t.lexNodes.AcceptsOnly t.IsToken := by
  obtain ⟨named, anonymous, arena, hNamed, hAnonymous, _⟩ := h.lowers.automata
  have hCount := h.symbolCount_lt
  have hTokenCount : t.tokenCount.toNat = g.vocabulary.terminalCount := by rw [h.table]; exact h.tokenCount_eq
  simp only [Vocabulary.symbolCount] at hCount
  have hTokens : g.vocabulary.tokens.length = g.tokens.length + g.externals.length := by simp [vocabulary]
  have hSymbol (i : Nat) (hPos : 0 < i) (hBound : i < g.vocabulary.terminalCount) : t.IsToken (.ofIndex i) := by
    have hIndex : (Symbol.ofIndex i).index = i := Symbol.index_ofIndex (by omega)
    refine ⟨?_, fun hEq => ?_⟩
    · rw [Table.isTerminal, decide_eq_true_eq, UInt16.lt_iff_toNat_lt, hTokenCount]
      exact lt_of_eq_of_lt hIndex hBound
    · rw [hEq] at hIndex
      exact absurd hIndex.symm (Nat.ne_of_gt hPos)
  rw [Vocabulary.terminalCount] at hSymbol
  have hFirst : arena.AcceptsOnly t.IsToken := by
    have hNone : LexArena.AcceptsOnly t.IsToken #[] := fun s hs => absurd hs (by simp)
    have := LexArena.addAutomata_acceptsOnly 1 (g.tokens.map (·.2)) hNone fun i hi hBound =>
        hSymbol i hi (by simp only [List.length_map] at hBound; omega)
    rwa [hNamed] at this
  have hSecond := LexArena.addAutomata_acceptsOnly (1 + g.vocabulary.tokens.length)
    (g.vocabulary.literals.map fun text => .literal text.toList) hFirst
    fun i hi hBound => hSymbol i (by omega) (by simp only [List.length_map] at hBound; omega)
  have hNodes : t.lexNodes = l.lexNodes := by rw [h.table]; rfl
  rwa [hAnonymous, ← hNodes] at hSecond

end Grammar.Built

/-! ## Matches -/

variable {σ : Type} {src : Source σ} {Ok : σ → Prop} {bytes : List UInt8}

/-- The match has a size, lies within the text, and is one of a token. -/
structure Found.Fits (t : Table) (bytes : List UInt8) (pos : Nat) (found : Found) : Prop where
  lt : pos < found.stop
  le : found.stop ≤ bytes.length
  isToken : t.IsToken found.symbol

namespace Source

theorem Serves.charAt_end (h : src.Serves Ok bytes) {pos : Nat} {s s' : σ} (hs : Ok s)
    (hChar : src.charAt pos s = (none, s')) : bytes.length ≤ pos ∧ Ok s' := by
  obtain ⟨hDecode, hOk⟩ := h.charAt_eq hs
  rw [hChar] at hDecode hOk
  exact ⟨decodeAt_eq_none.mp hDecode.symm, hOk⟩

theorem Serves.charAt_some (h : src.Serves Ok bytes) {pos : Nat} {s s' : σ} {d : Decoded} (hs : Ok s)
    (hChar : src.charAt pos s = (some d, s')) : pos + d.width ≤ bytes.length ∧ Ok s' := by
  obtain ⟨hDecode, hOk⟩ := h.charAt_eq hs
  rw [hChar] at hDecode hOk
  exact ⟨width_le_of_decodeAt hDecode.symm, hOk⟩

theorem Serves.endFrom_eq (h : src.Serves Ok bytes) {offset : Nat} {s : σ} (hs : Ok s) :
    (src.endFrom offset s).1 = max bytes.length offset ∧ Ok (src.endFrom offset s).2 := by
  generalize hLeft : bytes.length - offset = left
  induction left using Nat.strongRecOn generalizing offset s with
  | ind left ih =>
    obtain ⟨hBegins, hOk, hPos⟩ := h.read_eq hs
    have hLe : (src.read offset s).1.size ≤ (bytes.drop offset).length := hBegins.size_le
    rw [List.length_drop] at hLe
    rw [endFrom]
    split
    next chunk s' hRead =>
      rw [hRead] at hOk hPos hLe
      dsimp only at hOk hPos hLe
      split
      next hEmpty =>
        refine ⟨?_, hOk⟩
        by_cases hOffset : offset < bytes.length
        · exact absurd hEmpty (Nat.ne_of_gt (hPos hOffset))
        · omega
      next hEmpty =>
        obtain ⟨hEnd, hOk'⟩ := ih (bytes.length - (offset + chunk.size)) (by omega) hOk rfl
        exact ⟨by rw [hEnd]; omega, hOk'⟩

end Source

namespace Table

variable {t : Table}

theorem better_cases {pos : Nat} {best : Option (Nat × Symbol)} {s : Symbol} {c : Nat × Symbol}
    (h : t.better pos best s = some c) : best = some c ∨ c = (pos, s) := by
  cases best with
  | none => exact .inr (Option.some.inj h).symm
  | some incumbent =>
    simp only [better] at h
    split at h
    · exact .inr (Option.some.inj h).symm
    · exact .inl h

theorem foldl_better_cases {pos : Nat} {symbols : List Symbol} {best : Option (Nat × Symbol)} {c : Nat × Symbol}
    (h : symbols.foldl (t.better pos) best = some c) : best = some c ∨ (c.1 = pos ∧ c.2 ∈ symbols) := by
  induction symbols generalizing best with
  | nil => exact .inl h
  | cons s rest ih =>
    rcases ih h with h | ⟨hPos, hMem⟩
    · rcases better_cases h with h | rfl
      · exact .inl h
      · exact .inr ⟨rfl, List.mem_cons_self⟩
    · exact .inr ⟨hPos, List.mem_cons_of_mem _ hMem⟩

end Table

section Lexing

variable (h : src.Serves Ok bytes)
include h

theorem matchFrom_fits {t : Table} (hAccepts : t.lexNodes.AcceptsOnly t.IsToken) {start pos furthest : Nat}
    (hPos : start ≤ pos) (best : Option (Nat × Symbol)) {set : Array UInt32} {s : LexState σ} (hInput : Ok s.input)
    (hBest : ∀ c, best = some c → start < c.1 ∧ c.1 ≤ bytes.length ∧ t.IsToken c.2) :
    (∀ c, (matchFrom t src pos furthest best set s).1.1 = some c →
      start < c.1 ∧ c.1 ≤ bytes.length ∧ t.IsToken c.2) ∧ Ok (matchFrom t src pos furthest best set s).2.input := by
  generalize hLeft : bytes.length - pos = left
  induction left using Nat.strongRecOn generalizing pos furthest best set s with
  | ind left ih =>
    cases hConsuming : set.any t.lexNodes.isConsuming with
    | false => rw [(matchFrom_done t src hConsuming).1]; exact ⟨hBest, hInput⟩
    | true =>
      rcases hChar : src.charAt pos s.input with ⟨_ | d, input⟩
      · rw [(matchFrom_end t src hConsuming hChar).1]
        exact ⟨hBest, (h.charAt_end hInput hChar).2⟩
      · obtain ⟨hWithin, hOk⟩ := h.charAt_some hInput hChar
        have hWidth := d.width_pos
        rw [(matchFrom_step t src hConsuming hChar rfl).1]
        refine ih (bytes.length - (pos + d.width)) (by omega) (by omega) _ hOk (fun c hc => ?_) rfl
        rcases Table.foldl_better_cases hc with hc | ⟨hStop, hMem⟩
        · exact hBest c hc
        · obtain ⟨n, _, hAccepted⟩ := List.mem_filterMap.mp hMem
          rw [LexArena.accepted?_eq_some] at hAccepted
          exact ⟨by omega, by omega, hAccepts _ (Array.mem_of_getElem? hAccepted)⟩

theorem longestMatch_fits {t : Table} (hAccepts : t.lexNodes.AcceptsOnly t.IsToken) (pos : Nat) (tokens : List Symbol)
    {s : LexState σ} (hInput : Ok s.input) :
    (∀ found, (longestMatch t src pos tokens s).1 = some found → found.Fits t bytes pos) ∧
      Ok (longestMatch t src pos tokens s).2.input := by
  rw [(longestMatch_step t src rfl).1]
  obtain ⟨hBest, hOk⟩ := matchFrom_fits h hAccepts (Nat.le_refl pos) none
    (s := ⟨(t.lexNodes.addNodes (tokens.filterMap fun token => (t.lexOf token).start) s.marks.renew #[]).2, s.input⟩)
    hInput (by simp)
  refine ⟨fun found hFound => ?_, hOk⟩
  obtain ⟨c, hc, rfl⟩ := Option.map_eq_some_iff.mp hFound
  obtain ⟨hLt, hLe, hSymbol⟩ := hBest c hc
  exact ⟨hLt, hLe, hSymbol⟩

end Lexing

/-! ## Tokens -/

/-- What is lexed at `pos` lies within the text; the end of the input is found at the end only. -/
structure Token.Fits (l : Language) (bytes : List UInt8) (pos : Nat) (t : Token) : Prop where
  size_le : pos + t.size ≤ max bytes.length pos
  eof : t.symbol = .eof → bytes.length ≤ pos
  terminal : l.isTerminal t.symbol = true
  error : t.isError = true → t.symbol = .error

/-- Only the end of the input has no size, in a text below 2^32 bytes. -/
def Token.Sized (bytes : List UInt8) (t : Token) : Prop := bytes.length < 2 ^ 32 → t.symbol ≠ .eof → 0 < t.size

theorem narrow_pos {pos stop : Nat} (hLt : pos < stop) (hStop : stop ≤ bytes.length) (hShort : bytes.length < 2 ^ 32) :
    0 < narrow (stop - pos) := by
  rw [narrow_of_lt (by omega)]
  omega

theorem add_narrow_le {pos stop bound : Nat} (hPos : pos ≤ bound) (hStop : stop ≤ bound) :
    pos + narrow (stop - pos) ≤ bound := by
  have := narrow_le (stop - pos)
  omega

namespace Language

variable {l : Language} {g : Grammar}

theorem BuiltFrom.acceptsOnly (h : l.BuiltFrom g) : l.table.lexNodes.AcceptsOnly l.table.IsToken := by
  obtain ⟨_, _, hBuilt⟩ := h.built
  exact hBuilt.acceptsOnly

theorem BuiltFrom.isTerminal_eof (h : l.BuiltFrom g) : l.isTerminal .eof = true := by
  have hPos := h.valid.tokens_pos
  simp only [isTerminal, Table.isTerminal, Bool.or_eq_true, decide_eq_true_eq, UInt16.lt_iff_toNat_lt]
  exact .inr hPos

theorem isTerminal_of_isToken {s : Symbol} (h : l.table.IsToken s) : l.isTerminal s = true := by
  rw [isTerminal, h.1, Bool.or_true]

theorem fits_tokenOf {pos : Nat} {found : Found} (h : found.Fits l.table bytes pos) (id : LexModeId) :
    (tokenOf pos found id).Fits l bytes pos ∧ (tokenOf pos found id).Sized bytes := by
  obtain ⟨hLt, hLe, hSymbol⟩ := h
  have hBound := add_narrow_le (Nat.le_max_right bytes.length pos) (Nat.le_trans hLe (Nat.le_max_left _ _))
  exact ⟨⟨hBound, fun hEof => absurd hEof hSymbol.2, isTerminal_of_isToken hSymbol,
    fun hError => absurd hError Bool.false_ne_true⟩, fun hShort _ => narrow_pos hLt hLe hShort⟩

section Lexing

variable (hServes : src.Serves Ok bytes) (h : l.BuiltFrom g)
include hServes h

theorem BuiltFrom.keywordFor_fits {pos : Nat} {found : Found} (hFound : found.Fits l.table bytes pos) {s : LexState σ}
    (hInput : Ok s.input) :
    (l.keywordFor src pos found s).1.Fits l.table bytes pos ∧ Ok (l.keywordFor src pos found s).2.input := by
  rw [keywordFor]
  split
  · obtain ⟨hKeyword, hOk⟩ := longestMatch_fits hServes h.acceptsOnly pos l.keywords hInput
    split
    next keyword s' hMatch =>
      rw [hMatch] at hKeyword hOk
      split
      · exact ⟨⟨hFound.lt, hFound.le, (hKeyword keyword rfl).isToken⟩, hOk⟩
      · exact ⟨hFound, hOk⟩
    next s' hMatch =>
      rw [hMatch] at hOk
      exact ⟨hFound, hOk⟩
  · exact ⟨hFound, hInput⟩

theorem BuiltFrom.lexInternal_fits (pos : Nat) (mode : LexMode) (id : LexModeId) {s : LexState σ} (hInput : Ok s.input) :
    (∀ token, (l.lexInternal src pos mode id s).1 = some token → token.Fits l bytes pos ∧ token.Sized bytes) ∧
      Ok (l.lexInternal src pos mode id s).2.input := by
  obtain ⟨hFound, hOk⟩ := longestMatch_fits hServes h.acceptsOnly pos mode.tokens hInput
  rw [lexInternal]
  split
  next found s' hMatch =>
    rw [hMatch] at hFound hOk
    obtain ⟨hResolved, hOk'⟩ := h.keywordFor_fits hServes (hFound found rfl) hOk
    refine ⟨fun token hToken => ?_, hOk'⟩
    obtain rfl := Option.some.inj hToken
    exact fits_tokenOf hResolved id
  next s' hMatch =>
    rw [hMatch] at hOk
    exact ⟨fun _ hToken => (by cases hToken), hOk⟩

/-- Skipping ends within the text, and takes at least one character before the end. -/
theorem BuiltFrom.skipFrom_fits {stop furthest : Nat} {s : LexState σ} (hInput : Ok s.input) (hStop : stop ≤ bytes.length) :
    stop ≤ (l.skipFrom src stop furthest s).1.1 ∧ (l.skipFrom src stop furthest s).1.1 ≤ bytes.length ∧
      (stop < bytes.length → stop < (l.skipFrom src stop furthest s).1.1) ∧
      Ok (l.skipFrom src stop furthest s).2.input := by
  fun_induction skipFrom l src stop furthest s with
  | case1 stop furthest s input hChar =>
    obtain ⟨hEnd, hOk⟩ := hServes.charAt_end hInput hChar
    exact ⟨Nat.le_refl _, hStop, fun hLt => absurd hLt (by omega), hOk⟩
  | case2 stop furthest s d input hChar next furthest' input' hNext =>
    obtain ⟨hWithin, hOk⟩ := hServes.charAt_some hInput hChar
    have hWidth := d.width_pos
    exact ⟨Nat.le_add_right _ _, hWithin, fun _ => Nat.lt_add_of_pos_right hWidth, (hServes.charAt_end hOk hNext).2⟩
  | case3 stop furthest s d input hChar next furthest' d' input' hNext found s' hMatch =>
    obtain ⟨hWithin, hOk⟩ := hServes.charAt_some hInput hChar
    have hWidth := d.width_pos
    have hOk' := (longestMatch_fits hServes h.acceptsOnly next l.errorMode.tokens
      (s := { s with input := input' }) (hServes.charAt_some hOk hNext).2).2
    rw [hMatch] at hOk'
    exact ⟨Nat.le_add_right _ _, hWithin, fun _ => Nat.lt_add_of_pos_right hWidth, hOk'⟩
  | case4 stop furthest s d input hChar next furthest' d' input' hNext s' hMatch ih =>
    obtain ⟨hWithin, hOk⟩ := hServes.charAt_some hInput hChar
    have hWidth := d.width_pos
    have hOk' := (longestMatch_fits hServes h.acceptsOnly next l.errorMode.tokens
      (s := { s with input := input' }) (hServes.charAt_some hOk hNext).2).2
    rw [hMatch] at hOk'
    obtain ⟨hLe, hBound, _, hEnd⟩ := ih hOk' hWithin
    exact ⟨by omega, hBound, fun _ => by omega, hEnd⟩

theorem BuiltFrom.lexError_fits {pos : Nat} {s : LexState σ} (hInput : Ok s.input) (hPos : pos < bytes.length) :
    ((l.lexError src pos s).1.Fits l bytes pos ∧ (l.lexError src pos s).1.Sized bytes) ∧
      Ok (l.lexError src pos s).2.input := by
  obtain ⟨_, hBound, hLt, hOk⟩ := h.skipFrom_fits hServes hInput (Nat.le_of_lt hPos)
  rw [lexError]
  have hSize := add_narrow_le (Nat.le_max_right bytes.length pos) (Nat.le_trans hBound (Nat.le_max_left _ _))
  exact ⟨⟨⟨hSize, fun hEof => (by cases hEof), rfl, fun _ => rfl⟩,
    fun hShort _ => narrow_pos (hLt hPos) hBound hShort⟩, hOk⟩

theorem BuiltFrom.lexAutomata_fits (pos : Nat) (id : LexModeId) {s : LexState σ} (hInput : Ok s.input) :
    ((l.lexAutomata src pos id s).1.Fits l bytes pos ∧ (l.lexAutomata src pos id s).1.Sized bytes) ∧
      Ok (l.lexAutomata src pos id s).2.input := by
  rw [lexAutomata]
  split
  next input hChar =>
    obtain ⟨hEnd, hOk⟩ := hServes.charAt_end hInput hChar
    exact ⟨⟨⟨Nat.le_max_right _ _, fun _ => hEnd, h.isTerminal_eof, fun hError => absurd hError Bool.false_ne_true⟩,
      fun _ hEof => absurd rfl hEof⟩, hOk⟩
  next d input hChar =>
    obtain ⟨hWithin, hOk⟩ := hServes.charAt_some hInput hChar
    have hWidth := d.width_pos
    obtain ⟨hToken, hOk'⟩ := h.lexInternal_fits hServes pos (l.lexMode id) id (s := { s with input }) hOk
    split
    next token s' hLex =>
      rw [hLex] at hToken hOk'
      exact ⟨hToken token rfl, hOk'⟩
    next s' hLex =>
      rw [hLex] at hOk'
      split
      · exact h.lexError_fits hServes hOk' (by omega)
      · obtain ⟨hAgain, hOk''⟩ := h.lexInternal_fits hServes pos (l.lexMode errorLexMode) errorLexMode hOk'
        split
        next token s'' hLex =>
          rw [hLex] at hAgain hOk''
          exact ⟨hAgain token rfl, hOk''⟩
        next s'' hLex =>
          rw [hLex] at hOk''
          exact h.lexError_fits hServes hOk'' (by omega)

omit h in
/-- A scan ends within the text, and looks at nothing behind it. -/
theorem runFrom_fits (scanner : ExternalScanner) {pos furthest : Nat} (mark : Option Nat) (memory : ScanMemory) {s : σ}
    (hInput : Ok s) {bound : Nat} (hBound : bytes.length ≤ bound) (hPos : pos ≤ bound) (hFurthest : furthest ≤ bound)
    (hMark : ∀ m, mark = some m → m ≤ bound) :
    (scanner.runFrom src pos furthest mark memory s).1.stop ≤ bound ∧
      (scanner.runFrom src pos furthest mark memory s).1.furthest ≤ bound ∧
      Ok (scanner.runFrom src pos furthest mark memory s).2 := by
  have hEnd (marks : Bool) {pos : Nat} {mark : Option Nat} (hPos : pos ≤ bound) (hMark : ∀ m, mark = some m → m ≤ bound) :
      (if marks then pos else mark.getD pos) ≤ bound := by
    cases marks with
    | true => exact hPos
    | false =>
      cases mark with
      | none => exact hPos
      | some m => exact hMark m rfl
  fun_induction ExternalScanner.runFrom scanner src pos furthest mark memory s with
  | case1 pos furthest mark memory s input hChar marks index memory' hMove =>
    exact ⟨hEnd marks hPos hMark, hFurthest, (hServes.charAt_end hInput hChar).2⟩
  | case2 pos furthest mark memory s d input hChar furthest' marks index memory' hMove =>
    obtain ⟨hWithin, hOk⟩ := hServes.charAt_some hInput hChar
    exact ⟨hEnd marks hPos hMark, Nat.max_le.mpr ⟨hFurthest, by omega⟩, hOk⟩
  | case3 pos furthest mark memory s d input hChar furthest' marks memory' hMove ih =>
    obtain ⟨hWithin, hOk⟩ := hServes.charAt_some hInput hChar
    refine ih hOk (by omega) (Nat.max_le.mpr ⟨hFurthest, by omega⟩) fun m hm => ?_
    cases marks with
    | true => exact Option.some.inj hm ▸ hPos
    | false => exact hMark m hm

theorem BuiltFrom.lexExternal_fits (scanner : ExternalScanner) (pos : Nat) (id : LexModeId) (state : Option (List UInt8))
    (left : ScanMemory) {s : σ} (hInput : Ok s) :
    (∀ token, (l.lexExternal scanner src pos id state left s).1.1 = some token → token.Fits l bytes pos) ∧
      Ok (l.lexExternal scanner src pos id state left s).2 := by
  obtain ⟨hStop, _, hOk⟩ := runFrom_fits hServes scanner none _ hInput (Nat.le_max_left _ pos)
    (Nat.le_max_right _ _) (Nat.le_max_right _ _) (by simp)
  refine ⟨fun token hToken => ?_, hOk⟩
  simp only [lexExternal, Option.bind_eq_bind, Option.bind_eq_some_iff] at hToken
  obtain ⟨index, _, symbol, hSymbol, hToken⟩ := hToken
  split at hToken
  · obtain rfl := Option.some.inj hToken
    have hIsToken : l.table.IsToken symbol := h.valid.extra_terminal (.inr (List.mem_of_getElem? hSymbol))
    exact ⟨add_narrow_le (Nat.le_max_right _ _) (Nat.max_le.mpr ⟨hStop, Nat.le_max_right _ _⟩),
      fun hEof => absurd hEof hIsToken.2, isTerminal_of_isToken hIsToken, fun hError => absurd hError Bool.false_ne_true⟩
  · cases hToken

theorem BuiltFrom.lexWith_fits (scanner : Option ExternalScanner) (pos : Nat) (id : LexModeId) (state : Option (List UInt8))
    {s : LexSession σ} (hInput : Ok s.input) :
    (l.lexWith scanner src pos id state s).1.Fits l bytes pos ∧ Ok (l.lexWith scanner src pos id state s).2.input := by
  have hAutomata (s : LexState σ) (hInput : Ok s.input) :
      (l.lexAutomata src pos id s).1.Fits l bytes pos ∧ Ok (l.lexAutomata src pos id s).2.input := by
    obtain ⟨⟨hFits, _⟩, hOk⟩ := h.lexAutomata_fits hServes pos id hInput
    exact ⟨hFits, hOk⟩
  cases scanner with
  | none => exact hAutomata s.toLexState hInput
  | some scanner =>
    rw [lexWith]
    split
    · obtain ⟨hToken, hOk⟩ := h.lexExternal_fits hServes scanner pos id state (s.memory.getD scanner.fresh) hInput
      split
      next token memory input hLex =>
        rw [hLex] at hToken hOk
        exact ⟨hToken token rfl, hOk⟩
      next memory input hLex =>
        rw [hLex] at hOk
        exact hAutomata { s.toLexState with input } hOk
    · exact hAutomata s.toLexState hInput

theorem BuiltFrom.lexWith_sized (pos : Nat) (id : LexModeId) (state : Option (List UInt8)) {s : LexSession σ}
    (hInput : Ok s.input) : (l.lexWith none src pos id state s).1.Sized bytes :=
  (h.lexAutomata_fits hServes pos id hInput).1.2

end Lexing

end Language
end Reparse
