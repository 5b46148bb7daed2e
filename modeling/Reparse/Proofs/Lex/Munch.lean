import Reparse.Lex.Token
import Reparse.Proofs.Language
import Reparse.Proofs.Lex.Runs
import Reparse.Proofs.Lex.Tokens
/-!
# Maximal munch with reserved words

`l.Lexed bytes pos id token` describes by searches for longest matches which token lexing finds;
`l.Munches bytes pos id token` describes it by the ways through the token automata alone. Lexing on fresh
marks answers with such a token, whatever the text, as long as the generation of the marks does not wrap.
`lexRenewals` counts how often lexing renews them.
-/
namespace Reparse

variable {σ : Type}

namespace Language

/-! ## Renewals -/

def keywordRenewals (l : Language) (src : Source σ) (pos : Nat) (found : Found) (s : LexState σ) : Nat :=
  if l.table.word = some found.symbol then longestRenewals l.table src pos l.keywords s else 0

def internalRenewals (l : Language) (src : Source σ) (pos : Nat) (mode : LexMode) (s : LexState σ) : Nat :=
  longestRenewals l.table src pos mode.tokens s +
    match longestMatch l.table src pos mode.tokens s with
    | (some found, s) => l.keywordRenewals src pos found s
    | (none, _) => 0

def skipRenewals (l : Language) (src : Source σ) (stop : Nat) (s : LexState σ) : Nat :=
  match _h : src.charAt stop s.input with
  | (none, _) => 0
  | (some d, input) =>
    let next := stop + d.width
    match src.charAt next input with
    | (none, _) => 0
    | (some _, input) =>
      longestRenewals l.table src next l.errorMode.tokens { s with input } +
        match longestMatch l.table src next l.errorMode.tokens { s with input } with
        | (some _, _) => 0
        | (none, s) => l.skipRenewals src next s
termination_by src.size - stop
decreasing_by
  have hPos := Source.lt_size_of_charAt (congrArg Prod.fst _h)
  have := d.width_pos
  omega

/-- How often lexing a token renews the marks. -/
def lexRenewals (l : Language) (src : Source σ) (pos : Nat) (id : LexModeId) (s : LexState σ) : Nat :=
  match src.charAt pos s.input with
  | (none, _) => 0
  | (some _, input) =>
    l.internalRenewals src pos (l.lexMode id) { s with input } +
      match l.lexInternal src pos (l.lexMode id) id { s with input } with
      | (some _, _) => 0
      | (none, s) =>
        if id = errorLexMode then l.skipRenewals src pos s
        else
          l.internalRenewals src pos (l.lexMode errorLexMode) s +
            match l.lexInternal src pos (l.lexMode errorLexMode) errorLexMode s with
            | (some _, _) => 0
            | (none, s) => l.skipRenewals src pos s

end Language

/-! ## What lexing finds, by longest matches -/

/-- The match of a keyword in place of a word's, if it ends where the word does. -/
def Found.orKeyword (found : Found) : Option Found → Found
  | some keyword =>
    if keyword.stop = found.stop then ⟨keyword.symbol, found.stop, max found.furthest keyword.furthest⟩ else found
  | none => found

/-- A later character boundary. -/
def Boundary (bytes : List UInt8) (pos stop : Nat) : Prop := ∃ text, text ≠ [] ∧ Spans bytes pos text stop

theorem boundary_iff {bytes : List UInt8} {pos stop : Nat} : Boundary bytes pos stop ↔
    ∃ d, Source.decodeAt bytes pos = some d ∧ (stop = pos + d.width ∨ Boundary bytes (pos + d.width) stop) := by
  constructor
  · rintro ⟨text, hText, hSpans⟩
    cases hSpans with
    | nil => exact absurd rfl hText
    | @cons _ _ d rest hd hRest =>
      refine ⟨d, hd, ?_⟩
      cases hRest with
      | nil => exact .inl rfl
      | cons hd' hRest => exact .inr ⟨_, by simp, .cons hd' hRest⟩
  · rintro ⟨d, hd, rfl | ⟨text, _, hSpans⟩⟩
    · exact ⟨[d.char], by simp, .cons hd (.nil _)⟩
    · exact ⟨d.char :: text, by simp, .cons hd hSpans⟩

/-- The first later character boundary where `tokens` match or the text ends. -/
structure SkipsTo (t : Table) (tokens : List Symbol) (bytes : List UInt8) (pos stop : Nat) : Prop where
  boundary : Boundary bytes pos stop
  ended : stop < bytes.length → ∃ c, t.Match tokens bytes stop c
  first : ∀ mid, Boundary bytes pos mid → mid < stop → ∀ c, ¬t.Match tokens bytes mid c

namespace Language

/-- The match that stands for `found`: a keyword's, if `found` is a word that spells one. -/
def Resolved (l : Language) (bytes : List UInt8) (pos : Nat) (found resolved : Found) : Prop :=
  if l.table.word = some found.symbol then
    ∃ keyword, l.table.Longest l.keywords bytes pos keyword ∧ resolved = found.orKeyword keyword
  else resolved = found

/-- What the search in one mode answers. -/
inductive Searched (l : Language) (bytes : List UInt8) (pos : Nat) (mode : LexMode) (id : LexModeId) :
    Option Token → Prop
  | found {found resolved : Found} : l.table.Longest mode.tokens bytes pos (some found) →
      l.Resolved bytes pos found resolved → Searched l bytes pos mode id (some (tokenOf pos resolved id))
  | none : l.table.Longest mode.tokens bytes pos none → Searched l bytes pos mode id none

/-- The token at `pos`: the end of the input, a match in the mode, a match in the error mode, or an error. -/
inductive Lexed (l : Language) (bytes : List UInt8) (pos : Nat) (id : LexModeId) : Token → Prop
  | eof : bytes.length ≤ pos → Lexed l bytes pos id (endToken pos id)
  | inMode {token : Token} : pos < bytes.length → l.Searched bytes pos (l.lexMode id) id (some token) →
      Lexed l bytes pos id token
  | inErrorMode {token : Token} : pos < bytes.length → l.Searched bytes pos (l.lexMode id) id none →
      l.Searched bytes pos (l.lexMode errorLexMode) errorLexMode (some token) → Lexed l bytes pos id token
  | error {stop furthest : Nat} : pos < bytes.length → l.Searched bytes pos (l.lexMode id) id none →
      l.Searched bytes pos (l.lexMode errorLexMode) errorLexMode none →
      SkipsTo l.table l.errorMode.tokens bytes pos stop → Lexed l bytes pos id (errorToken pos stop furthest)

end Language

theorem LexState.Renewed.trans {t : Table} {Ok : σ → Prop} {a b c : LexState σ} {m n : Nat}
    (hFirst : LexState.Renewed t Ok a b m) (hSecond : LexState.Renewed t Ok b c n) :
    LexState.Renewed t Ok a c (m + n) :=
  ⟨hSecond.toReady, by rw [hSecond.generation, hFirst.generation, Nat.add_assoc]⟩

theorem Table.Longest.not_match {t : Table} {tokens : List Symbol} {bytes : List UInt8} {pos : Nat}
    (h : t.Longest tokens bytes pos none) (c : Nat × Symbol) : ¬t.Match tokens bytes pos c := by
  obtain ⟨_, _, _, hBest, _⟩ := h
  exact hBest c

theorem Table.Longest.best {t : Table} {tokens : List Symbol} {bytes : List UInt8} {pos : Nat} {found : Found}
    (h : t.Longest tokens bytes pos (some found)) :
    t.Match tokens bytes pos (found.stop, found.symbol) ∧
      ∀ c, t.Match tokens bytes pos c → t.Beats (found.stop, found.symbol) c := by
  obtain ⟨_, _, _, hBest, _⟩ := h
  exact hBest

namespace Language

section Skip

variable (l : Language) (src : Source σ) {stop furthest : Nat} {s : LexState σ} {input : σ}

theorem skipFrom_step {d : Decoded} (hChar : src.charAt stop s.input = (some d, input)) :
    l.skipFrom src stop furthest s =
        (match src.charAt (stop + d.width) input with
        | (none, input) => ((stop + d.width, max furthest (stop + d.width)), { s with input })
        | (some _, input) =>
          match longestMatch l.table src (stop + d.width) l.errorMode.tokens { s with input } with
          | (some found, s) =>
            ((stop + d.width, max (max furthest (stop + d.width)) found.furthest), s)
          | (none, s) => l.skipFrom src (stop + d.width) (max furthest (stop + d.width)) s) ∧
      l.skipRenewals src stop s =
        (match src.charAt (stop + d.width) input with
        | (none, _) => 0
        | (some _, input) =>
          longestRenewals l.table src (stop + d.width) l.errorMode.tokens { s with input } +
            match longestMatch l.table src (stop + d.width) l.errorMode.tokens { s with input } with
            | (some _, _) => 0
            | (none, s) => l.skipRenewals src (stop + d.width) s) := by
  constructor
  · conv_lhs => rw [skipFrom]
    split
    next hNone => rw [hChar] at hNone; cases hNone
    next hSome =>
      rw [hChar] at hSome
      obtain ⟨hd, rfl⟩ := Prod.mk.inj hSome
      obtain rfl := Option.some.inj hd
      rfl
  · conv_lhs => rw [skipRenewals]
    split
    next hNone => rw [hChar] at hNone; cases hNone
    next hSome =>
      rw [hChar] at hSome
      obtain ⟨hd, rfl⟩ := Prod.mk.inj hSome
      obtain rfl := Option.some.inj hd
      rfl

end Skip

section Run

variable {l : Language} {src : Source σ} {Ok : σ → Prop} {bytes : List UInt8} {pos : Nat} {s : LexState σ}
  (h : src.Serves Ok bytes) (hReady : s.Ready l.table Ok)
include h hReady

theorem keywordFor_eq (pos : Nat) (found : Found)
    (hRoom : s.marks.generation.toNat + l.keywordRenewals src pos found s < 2 ^ 32) :
    l.Resolved bytes pos found (l.keywordFor src pos found s).1 ∧
      LexState.Renewed l.table Ok s (l.keywordFor src pos found s).2 (l.keywordRenewals src pos found s) := by
  rw [keywordFor, Resolved]
  rw [keywordRenewals] at hRoom ⊢
  split
  next hWord =>
    rw [if_pos hWord] at hRoom
    obtain ⟨hLongest, hRenewed⟩ := longestMatch_eq h pos l.keywords hReady hRoom
    generalize longestMatch l.table src pos l.keywords s = answer at hLongest hRenewed ⊢
    obtain ⟨keyword, s'⟩ := answer
    cases keyword with
    | none => exact ⟨⟨none, hLongest, rfl⟩, hRenewed⟩
    | some keyword =>
      dsimp only
      refine ⟨⟨some keyword, hLongest, ?_⟩, ?_⟩
      · rw [Found.orKeyword]
        split <;> rfl
      · split <;> exact hRenewed
  next hNot => exact ⟨rfl, hReady, rfl⟩

theorem lexInternal_eq (pos : Nat) (mode : LexMode) (id : LexModeId)
    (hRoom : s.marks.generation.toNat + l.internalRenewals src pos mode s < 2 ^ 32) :
    l.Searched bytes pos mode id (l.lexInternal src pos mode id s).1 ∧
      LexState.Renewed l.table Ok s (l.lexInternal src pos mode id s).2 (l.internalRenewals src pos mode s) := by
  rw [lexInternal]
  rw [internalRenewals] at hRoom ⊢
  obtain ⟨hLongest, hRenewed⟩ := longestMatch_eq h pos mode.tokens hReady (by omega)
  generalize longestMatch l.table src pos mode.tokens s = answer at hLongest hRenewed hRoom ⊢
  obtain ⟨found, s'⟩ := answer
  cases found with
  | none => exact ⟨.none hLongest, hRenewed⟩
  | some found =>
    dsimp only at hLongest hRenewed hRoom ⊢
    obtain ⟨hResolved, hRenewed'⟩ := keywordFor_eq h hRenewed.toReady pos found
      (by rw [hRenewed.generation]; omega)
    exact ⟨.found hLongest hResolved, hRenewed.trans hRenewed'⟩

omit hReady in
theorem skipFrom_eq {stop furthest : Nat} {s : LexState σ} (hReady : s.Ready l.table Ok) (hStop : stop < bytes.length)
    (hRoom : s.marks.generation.toNat + l.skipRenewals src stop s < 2 ^ 32) :
    SkipsTo l.table l.errorMode.tokens bytes stop (l.skipFrom src stop furthest s).1.1 ∧
      LexState.Renewed l.table Ok s (l.skipFrom src stop furthest s).2 (l.skipRenewals src stop s) := by
  obtain ⟨hDecode, hOk⟩ := h.charAt_eq hReady.input
  match hChar : src.charAt stop s.input with
  | (none, input) =>
    rw [hChar] at hDecode
    have := Source.decodeAt_eq_none.mp hDecode.symm
    omega
  | (some d, input) =>
    rw [hChar] at hDecode hOk
    have hPos := Source.lt_size_of_charAt (congrArg Prod.fst hChar)
    have hWidth := d.width_pos
    obtain ⟨hRun, hRenewals⟩ := skipFrom_step l src hChar
    rw [hRenewals] at hRoom ⊢
    rw [hRun]
    have hNext : Boundary bytes stop (stop + d.width) := boundary_iff.mpr ⟨d, hDecode.symm, .inl rfl⟩
    -- No boundary lies before the next one.
    have hLater {mid : Nat} (hMid : Boundary bytes stop mid) :
        mid = stop + d.width ∨ Boundary bytes (stop + d.width) mid := by
      obtain ⟨d', hd', hMid⟩ := boundary_iff.mp hMid
      obtain rfl := Option.some.inj (hDecode.trans hd')
      exact hMid
    have hNone {mid : Nat} (hMid : Boundary bytes stop mid) : stop + d.width ≤ mid := by
      rcases hLater hMid with rfl | ⟨text, _, hSpans⟩
      · exact Nat.le_refl _
      · exact hSpans.le
    obtain ⟨hDecode', hOk'⟩ := h.charAt_eq hOk
    dsimp only at hOk hOk'
    generalize src.charAt (stop + d.width) input = answer at hDecode' hOk' hRoom ⊢
    obtain ⟨d', input'⟩ := answer
    cases d' with
    | none =>
      have hEnd := Source.decodeAt_eq_none.mp hDecode'.symm
      refine ⟨⟨hNext, fun hLt => absurd hLt (Nat.not_lt.mpr hEnd), fun mid hMid hLt => ?_⟩, ⟨hReady.marks, hOk'⟩, rfl⟩
      exact absurd (hNone hMid) (Nat.not_le.mpr hLt)
    | some d' =>
      have hWithin : stop + d.width < bytes.length := by
        by_contra hPast
        rw [Source.decodeAt_eq_none.mpr (by omega)] at hDecode'
        cases hDecode'
      dsimp only at hRoom hOk' ⊢
      change _ + (_ + _) < _ at hRoom
      obtain ⟨hLongest, hRenewed⟩ := longestMatch_eq (s := { s with input := input' }) h (stop + d.width)
        l.errorMode.tokens ⟨hReady.marks, hOk'⟩ (by dsimp only; omega)
      have hRenewed' : LexState.Renewed l.table Ok s _ _ := ⟨hRenewed.toReady, hRenewed.generation⟩
      generalize longestMatch l.table src (stop + d.width) l.errorMode.tokens { s with input := input' } = answer
        at hLongest hRenewed' hRoom ⊢
      obtain ⟨found, s'⟩ := answer
      cases found with
      | some found =>
        refine ⟨⟨hNext, fun _ => ⟨_, hLongest.best.1⟩, fun mid hMid hLt => ?_⟩, hRenewed'⟩
        exact absurd (hNone hMid) (Nat.not_le.mpr hLt)
      | none =>
        dsimp only at hRoom hRenewed' ⊢
        obtain ⟨hSkips, hRenewed''⟩ := skipFrom_eq (s := s')
          hRenewed'.toReady hWithin (by rw [hRenewed'.generation]; omega)
        refine ⟨⟨?_, hSkips.ended, fun mid hMid hLt => ?_⟩, hRenewed'.trans hRenewed''⟩
        · exact boundary_iff.mpr ⟨d, hDecode.symm, .inr hSkips.boundary⟩
        · rcases hLater hMid with rfl | hMid
          · exact hLongest.not_match
          · exact hSkips.first mid hMid hLt
termination_by src.size - stop
decreasing_by omega

/-- Lexing finds what the searches for longest matches call for. -/
theorem lexAutomata_lexed {id : LexModeId} (hRoom : s.marks.generation.toNat + l.lexRenewals src pos id s < 2 ^ 32) :
    l.Lexed bytes pos id (l.lexAutomata src pos id s).1 := by
  rw [lexRenewals] at hRoom
  rw [lexAutomata]
  obtain ⟨hDecode, hOk⟩ := h.charAt_eq hReady.input
  generalize src.charAt pos s.input = answer at hDecode hOk hRoom ⊢
  obtain ⟨d, input⟩ := answer
  cases d with
  | none => exact .eof (Source.decodeAt_eq_none.mp hDecode.symm)
  | some d =>
    have hWithin : pos < bytes.length := by
      by_contra hPast
      rw [Source.decodeAt_eq_none.mpr (by omega)] at hDecode
      cases hDecode
    dsimp only at hRoom hOk ⊢
    have hReady' : LexState.Ready l.table Ok { s with input } := ⟨hReady.marks, hOk⟩
    obtain ⟨hFirst, hRenewed⟩ := lexInternal_eq h hReady' pos (l.lexMode id) id (by dsimp only; omega)
    have hGeneration := hRenewed.generation
    have hReady'' := hRenewed.toReady
    generalize l.lexInternal src pos (l.lexMode id) id { s with input } = answer
      at hFirst hReady'' hGeneration hRoom ⊢
    obtain ⟨token, s'⟩ := answer
    cases token with
    | some token => exact .inMode hWithin hFirst
    | none =>
      dsimp only at hRoom hGeneration hReady'' ⊢
      split
      next hId =>
        rw [if_pos hId] at hRoom
        obtain ⟨hSkips, _⟩ := skipFrom_eq h hReady'' hWithin (by omega)
        exact .error hWithin hFirst (hId ▸ hFirst) hSkips
      next hId =>
        rw [if_neg hId] at hRoom
        obtain ⟨hSecond, hRenewed'⟩ := lexInternal_eq h hReady'' pos (l.lexMode errorLexMode)
          errorLexMode (by omega)
        have hGeneration' := hRenewed'.generation
        have hReady' := hRenewed'.toReady
        generalize l.lexInternal src pos (l.lexMode errorLexMode) errorLexMode s' = answer
          at hSecond hReady' hGeneration' hRoom ⊢
        obtain ⟨token, s''⟩ := answer
        cases token with
        | some token => exact .inErrorMode hWithin hFirst hSecond
        | none =>
          dsimp only at hRoom hGeneration' hReady' ⊢
          obtain ⟨hSkips, _⟩ := skipFrom_eq h hReady' hWithin (by omega)
          exact .error hWithin hFirst hSecond hSkips

end Run

theorem lexMarks_ready {l : Language} {Ok : σ → Prop} {input : σ} (hInput : Ok input) :
    LexState.Ready l.table Ok ⟨l.lexMarks, input⟩ :=
  ⟨⟨by simp [lexMarks, LexMarks.ofSize], LexMarks.bounded_ofSize _⟩, hInput⟩

theorem lexAutomata_lexed_fresh {l : Language} {src : Source σ} {Ok : σ → Prop} {bytes : List UInt8}
    (hServes : src.Serves Ok bytes) {input : σ} (hInput : Ok input) {pos : Nat} {id : LexModeId}
    (hRoom : l.lexRenewals src pos id ⟨l.lexMarks, input⟩ < 2 ^ 32) :
    l.Lexed bytes pos id (l.lexAutomata src pos id ⟨l.lexMarks, input⟩).1 :=
  lexAutomata_lexed hServes (lexMarks_ready hInput) (by simpa [lexMarks, LexMarks.ofSize] using hRoom)

end Language

/-! ## What lexing finds, by the ways through the automata -/

/-- From the first node of `c.2`, one of `tokens`, a way over the characters from `pos` up to `c.1`, at least one,
leads to a node that accepts it. -/
def Table.Lexeme (t : Table) (tokens : List Symbol) (bytes : List UInt8) (pos : Nat) (c : Nat × Symbol) : Prop :=
  c.2 ∈ tokens ∧ ∃ first text n, (t.lexOf c.2).start = some first ∧ text ≠ [] ∧ Spans bytes pos text c.1 ∧
    t.lexNodes.Leads first text n ∧ t.lexNodes.accepted? n = some c.2

namespace Language

/-- The lexeme that is preferred to all others: the longest one, a literal before a pattern, then the one with
the lower symbol. -/
def IsBest (l : Language) (tokens : List Symbol) (bytes : List UInt8) (pos : Nat) (c : Nat × Symbol) : Prop :=
  l.table.Lexeme tokens bytes pos c ∧ ∀ c', l.table.Lexeme tokens bytes pos c' → l.table.Beats c c'

/-- `text` is the text of the keyword. -/
def Spells (l : Language) (keyword : Symbol) (text : List Char) : Prop :=
  keyword ∈ l.keywords ∧ (l.table.info? keyword).map (·.name) = some (String.ofList text)

/-- The end and the symbol that are chosen from `tokens`: those of the best lexeme, but a word that spells a
keyword is that keyword. -/
inductive Picks (l : Language) (tokens : List Symbol) (bytes : List UInt8) (pos : Nat) : Nat × Symbol → Prop
  | best {c : Nat × Symbol} {text : List Char} : l.IsBest tokens bytes pos c → Spans bytes pos text c.1 →
      (l.table.word = some c.2 → ∀ keyword, ¬l.Spells keyword text) → Picks l tokens bytes pos c
  | keyword {stop : Nat} {word keyword : Symbol} {text : List Char} : l.IsBest tokens bytes pos (stop, word) →
      Spans bytes pos text stop → l.table.word = some word → l.Spells keyword text →
      Picks l tokens bytes pos (stop, keyword)

/-- The first later character boundary where the error mode has a lexeme or the text ends. -/
structure ErrorEnd (l : Language) (bytes : List UInt8) (pos stop : Nat) : Prop where
  boundary : Boundary bytes pos stop
  ended : stop = bytes.length ∨ ∃ c, l.table.Lexeme l.errorMode.tokens bytes stop c
  first : ∀ mid, Boundary bytes pos mid → mid < stop → ∀ c, ¬l.table.Lexeme l.errorMode.tokens bytes mid c

/-- The token that maximal munch with reserved words calls for, and where it ends in the text. -/
inductive Munches (l : Language) (bytes : List UInt8) (pos : Nat) (id : LexModeId) : (stop : Nat) → Token → Prop
  | eof : bytes.length ≤ pos → Munches l bytes pos id pos (endToken pos id)
  | inMode {found : Found} : pos < bytes.length →
      l.Picks (l.lexMode id).tokens bytes pos (found.stop, found.symbol) →
      Munches l bytes pos id found.stop (tokenOf pos found id)
  | inErrorMode {found : Found} : pos < bytes.length →
      (∀ c, ¬l.table.Lexeme (l.lexMode id).tokens bytes pos c) →
      l.Picks l.errorMode.tokens bytes pos (found.stop, found.symbol) →
      Munches l bytes pos id found.stop (tokenOf pos found errorLexMode)
  | error {stop furthest : Nat} : pos < bytes.length → (∀ c, ¬l.table.Lexeme (l.lexMode id).tokens bytes pos c) →
      (∀ c, ¬l.table.Lexeme l.errorMode.tokens bytes pos c) → l.ErrorEnd bytes pos stop →
      Munches l bytes pos id stop (errorToken pos stop furthest)

variable {g : Grammar} {l : Language} {bytes : List UInt8} {pos : Nat} {tokens : List Symbol}

theorem BuiltFrom.match_iff (h : l.BuiltFrom g) (hNodes : l.table.lexNodes.size ≤ 2 ^ 32) {c : Nat × Symbol} :
    l.table.Match tokens bytes pos c ↔ l.table.Lexeme tokens bytes pos c := by
  obtain ⟨_, _, hBuilt⟩ := h.built
  constructor
  · rintro ⟨text, hText, hSpans, n, ⟨token, hToken, first, hFirst, hLeads⟩, hAccept⟩
    obtain ⟨stop, s⟩ := c
    obtain rfl : s = token := hBuilt.own_accept hNodes hFirst hLeads hAccept
    exact ⟨hToken, first, text, n, hFirst, hText, hSpans, hLeads, hAccept⟩
  · rintro ⟨hToken, first, text, n, hFirst, hText, hSpans, hLeads, hAccept⟩
    exact ⟨text, hText, hSpans, n, ⟨c.2, hToken, first, hFirst, hLeads⟩, hAccept⟩

theorem BuiltFrom.mem_keywords (h : l.BuiltFrom g) {k : Symbol} (hk : k ∈ l.keywords) :
    (l.table.lexOf k).keyword = true := by
  rw [h.keywords, Table.keywords, List.mem_filter] at hk
  exact hk.2

theorem BuiltFrom.spells_unique (h : l.BuiltFrom g) (hNodes : l.table.lexNodes.size ≤ 2 ^ 32) {k k' : Symbol}
    {text : List Char} (hk : l.Spells k text) (hk' : l.Spells k' text) : k = k' := by
  obtain ⟨_, _, hBuilt⟩ := h.built
  exact hBuilt.keyword_unique hNodes (h.mem_keywords hk.1) (h.mem_keywords hk'.1) (hk.2.trans hk'.2.symm)

theorem BuiltFrom.keyword_lexeme_iff (h : l.BuiltFrom g) (hNodes : l.table.lexNodes.size ≤ 2 ^ 32)
    {stop : Nat} {k : Symbol} {text : List Char} (hSpans : Spans bytes pos text stop) (hText : text ≠ []) :
    l.table.Lexeme l.keywords bytes pos (stop, k) ↔ l.Spells k text := by
  obtain ⟨_, _, hBuilt⟩ := h.built
  constructor
  · rintro ⟨hk, first, text', n, hFirst, _, hSpans', hLeads, hAccept⟩
    obtain rfl := hSpans.text_unique hSpans'
    obtain ⟨name, n', hName, _, hChain, hEnd⟩ := hBuilt.keyword_chain hNodes (h.mem_keywords hk) hFirst
    refine ⟨hk, ?_⟩
    rcases hChain.leads_cases hLeads with ⟨_, _, _, hQuiet⟩ | ⟨more, rfl, hMore⟩
    · rw [hQuiet] at hAccept
      cases hAccept
    · -- Nothing is consumed after the accepting node.
      cases hMore with
      | refl => rw [hName, List.append_nil, String.ofList_toList]
      | left hNode => rw [hEnd] at hNode; cases hNode
      | right hNode => rw [hEnd] at hNode; cases hNode
      | chars hNode => rw [hEnd] at hNode; cases hNode
  · rintro ⟨hk, hName⟩
    obtain ⟨first, hFirst⟩ := hBuilt.keyword_start (h.mem_keywords hk)
    obtain ⟨name, n, hName', _, hChain, hEnd⟩ := hBuilt.keyword_chain hNodes (h.mem_keywords hk) hFirst
    obtain rfl := Option.some.inj (hName.symm.trans hName')
    rw [String.toList_ofList] at hChain
    exact ⟨hk, first, text, n, hFirst, hText, hSpans, hChain.leads, LexArena.accepted?_eq_some.mpr hEnd⟩

/-- Where a keyword may be read, the word token matches as well. -/
theorem BuiltFrom.word_lexeme (h : l.BuiltFrom g) (hNodes : l.table.lexNodes.size ≤ 2 ^ 32) {word : Symbol}
    (hWord : l.table.word = some word) (hMem : word ∈ tokens) {c : Nat × Symbol}
    (hc : l.table.Lexeme l.keywords bytes pos c) : l.table.Lexeme tokens bytes pos (c.1, word) := by
  obtain ⟨_, _, hBuilt⟩ := h.built
  obtain ⟨hk, firstKeyword, text, n, hFirstKeyword, hText, hSpans, hLeads, hAccept⟩ := id hc
  obtain ⟨name, _, hName, hKeyword, _⟩ := hBuilt.keyword_chain hNodes (h.mem_keywords hk) hFirstKeyword
  have hSpells := (h.keyword_lexeme_iff hNodes hSpans hText).mp hc
  obtain rfl := Option.some.inj (hName.symm.trans hSpells.2)
  obtain ⟨first, hFirst⟩ := Option.isSome_iff_exists.mp (h.valid.word_pattern hWord).2.1
  obtain ⟨n', hLeads', hAccept'⟩ := hBuilt.word_covers hNodes hKeyword hWord hFirst
  rw [String.toList_ofList] at hLeads'
  exact ⟨hMem, first, text, n', hFirst, hText, hSpans, hLeads', hAccept'⟩

/-- The best lexeme, keywords told apart from words, is what the two searches answer. -/
theorem BuiltFrom.picks (h : l.BuiltFrom g) (hNodes : l.table.lexNodes.size ≤ 2 ^ 32) {found resolved : Found}
    (hLongest : l.table.Longest tokens bytes pos (some found)) (hResolved : l.Resolved bytes pos found resolved) :
    l.Picks tokens bytes pos (resolved.stop, resolved.symbol) := by
  have hBest : l.IsBest tokens bytes pos (found.stop, found.symbol) :=
    ⟨(h.match_iff hNodes).mp hLongest.best.1, fun c hc => hLongest.best.2 c ((h.match_iff hNodes).mpr hc)⟩
  obtain ⟨hMem, _, text, _, _, hText, hSpans, _⟩ := id hBest.1
  rw [Resolved] at hResolved
  split at hResolved
  next hWord =>
    obtain ⟨keyword, hKeyword, rfl⟩ := hResolved
    cases keyword with
    | none =>
      refine .best hBest hSpans fun _ k hk => ?_
      exact hKeyword.not_match _ ((h.match_iff hNodes).mpr ((h.keyword_lexeme_iff hNodes hSpans hText).mpr hk))
    | some k =>
      have hk := (h.match_iff hNodes).mp hKeyword.best.1
      rw [Found.orKeyword]
      split
      next hStop =>
        rw [hStop] at hk
        exact .keyword hBest hSpans hWord ((h.keyword_lexeme_iff hNodes hSpans hText).mp hk)
      next hStop =>
        refine .best hBest hSpans fun _ k' hk' => hStop ?_
        -- The word reaches at least as far as the longest keyword, and that as far as `k'`.
        have hLong := hKeyword.best.2 _ ((h.match_iff hNodes).mpr ((h.keyword_lexeme_iff hNodes hSpans hText).mpr hk'))
        have hShort := hBest.2 _ (h.word_lexeme hNodes hWord hMem hk)
        rcases hLong with hLong | ⟨hLong, _⟩
        · rcases hShort with hShort | ⟨hShort, _⟩ <;> dsimp only at hLong hShort <;> omega
        · exact hLong.symm
  next hNot =>
    rw [hResolved]
    exact .best hBest hSpans fun hWord => absurd hWord hNot

theorem Picks.lt {c : Nat × Symbol} (h : l.Picks tokens bytes pos c) : pos < c.1 := by
  cases h with
  | best hBest =>
    obtain ⟨⟨_, _, _, _, _, hText, hSpans, _⟩, _⟩ := hBest
    exact hSpans.lt hText
  | keyword hBest =>
    obtain ⟨⟨_, _, _, _, _, hText, hSpans, _⟩, _⟩ := hBest
    exact hSpans.lt hText

theorem BuiltFrom.picks_ne_eof (h : l.BuiltFrom g) (hNodes : l.table.lexNodes.size ≤ 2 ^ 32) {c : Nat × Symbol}
    (hPicks : l.Picks tokens bytes pos c) : c.2 ≠ .eof := by
  obtain ⟨_, _, hBuilt⟩ := h.built
  cases hPicks with
  | best hBest =>
    obtain ⟨⟨_, _, _, _, hFirst, _⟩, _⟩ := hBest
    exact hBuilt.ne_eof_of_start hNodes hFirst
  | keyword _ _ _ hSpells =>
    obtain ⟨_, hFirst⟩ := hBuilt.keyword_start (h.mem_keywords hSpells.1)
    exact hBuilt.ne_eof_of_start hNodes hFirst

theorem BuiltFrom.not_lexeme (h : l.BuiltFrom g) (hNodes : l.table.lexNodes.size ≤ 2 ^ 32) {mode : LexMode}
    {id : LexModeId} (hSearched : l.Searched bytes pos mode id none) (c : Nat × Symbol) :
    ¬l.table.Lexeme mode.tokens bytes pos c := by
  cases hSearched with
  | none hLongest => exact fun hc => hLongest.not_match c ((h.match_iff hNodes).mpr hc)

theorem BuiltFrom.searched_picks (h : l.BuiltFrom g) (hNodes : l.table.lexNodes.size ≤ 2 ^ 32) {mode : LexMode}
    {id : LexModeId} {token : Token} (hSearched : l.Searched bytes pos mode id (some token)) :
    ∃ found : Found, token = tokenOf pos found id ∧ l.Picks mode.tokens bytes pos (found.stop, found.symbol) := by
  cases hSearched with
  | @found _ resolved hLongest hResolved => exact ⟨resolved, rfl, h.picks hNodes hLongest hResolved⟩

theorem BuiltFrom.munches (h : l.BuiltFrom g) (hNodes : l.table.lexNodes.size ≤ 2 ^ 32) {id : LexModeId}
    {token : Token} (hLexed : l.Lexed bytes pos id token) : ∃ stop, l.Munches bytes pos id stop token := by
  have hErrorMode := h.lexMode_error
  cases hLexed with
  | eof hEnd => exact ⟨_, .eof hEnd⟩
  | inMode hWithin hSearched =>
    obtain ⟨found, rfl, hPicks⟩ := h.searched_picks hNodes hSearched
    exact ⟨_, .inMode hWithin hPicks⟩
  | inErrorMode hWithin hFirst hSecond =>
    obtain ⟨found, rfl, hPicks⟩ := h.searched_picks hNodes hSecond
    rw [hErrorMode] at hPicks
    exact ⟨_, .inErrorMode hWithin (h.not_lexeme hNodes hFirst) hPicks⟩
  | @error stop furthest hWithin hFirst hSecond hSkips =>
    have hNone := h.not_lexeme hNodes hSecond
    rw [hErrorMode] at hNone
    obtain ⟨text, hText, hSpans⟩ := hSkips.boundary
    refine ⟨stop, .error hWithin (h.not_lexeme hNodes hFirst) hNone ?_⟩
    refine ⟨hSkips.boundary, ?_, fun mid hMid hLt c hc => hSkips.first mid hMid hLt c ((h.match_iff hNodes).mpr hc)⟩
    rcases Nat.lt_or_ge stop bytes.length with hInside | hEnd
    · obtain ⟨c, hc⟩ := hSkips.ended hInside
      exact .inr ⟨c, (h.match_iff hNodes).mp hc⟩
    · exact .inl (Nat.le_antisymm (hSpans.le_length (Nat.le_of_lt hWithin)) hEnd)

theorem Picks.le_length {c : Nat × Symbol} (h : l.Picks tokens bytes pos c) (hPos : pos ≤ bytes.length) :
    c.1 ≤ bytes.length := by
  cases h with
  | best _ hSpans => exact hSpans.le_length hPos
  | keyword _ hSpans => exact hSpans.le_length hPos

theorem Munches.lt {id : LexModeId} {stop : Nat} {token : Token} (h : l.Munches bytes pos id stop token)
    (hWithin : pos < bytes.length) : pos < stop := by
  cases h with
  | eof hEnd => exact absurd hWithin (Nat.not_lt.mpr hEnd)
  | inMode _ hPicks => exact hPicks.lt
  | inErrorMode _ _ hPicks => exact hPicks.lt
  | error _ _ _ hEnd =>
    obtain ⟨_, hText, hSpans⟩ := hEnd.boundary
    exact hSpans.lt hText

/-- A token keeps its start and its size in 32 bits. -/
theorem Munches.kept {id : LexModeId} {stop : Nat} {token : Token} (h : l.Munches bytes pos id stop token) :
    token.start = narrow pos ∧ token.size = narrow (stop - pos) ∧ pos ≤ stop ∧ stop ≤ max bytes.length pos := by
  cases h with
  | eof => exact ⟨rfl, by rw [Nat.sub_self]; rfl, Nat.le_refl _, Nat.le_max_right _ _⟩
  | inMode hWithin hPicks =>
    have hLe := hPicks.le_length (Nat.le_of_lt hWithin)
    exact ⟨rfl, rfl, Nat.le_of_lt hPicks.lt, Nat.le_trans hLe (Nat.le_max_left _ _)⟩
  | inErrorMode hWithin _ hPicks =>
    have hLe := hPicks.le_length (Nat.le_of_lt hWithin)
    exact ⟨rfl, rfl, Nat.le_of_lt hPicks.lt, Nat.le_trans hLe (Nat.le_max_left _ _)⟩
  | error hWithin _ _ hEnd =>
    obtain ⟨_, hText, hSpans⟩ := hEnd.boundary
    have hLe := hSpans.le_length (Nat.le_of_lt hWithin)
    exact ⟨rfl, rfl, Nat.le_of_lt (hSpans.lt hText), Nat.le_trans hLe (Nat.le_max_left _ _)⟩

/-- In a text below 2^32 bytes nothing of them is lost. -/
theorem Munches.exact {id : LexModeId} {stop : Nat} {token : Token} (h : l.Munches bytes pos id stop token)
    (hShort : bytes.length < 2 ^ 32) (hPos : pos < 2 ^ 32) : token.start = pos ∧ token.stop = stop := by
  obtain ⟨hStart, hSize, hLe, hBound⟩ := h.kept
  have hStop : stop - pos < 2 ^ 32 := by omega
  rw [Token.stop, hStart, hSize, narrow_of_lt hPos, narrow_of_lt hStop]
  exact ⟨rfl, by omega⟩

theorem BuiltFrom.munches_eof_iff (h : l.BuiltFrom g) (hNodes : l.table.lexNodes.size ≤ 2 ^ 32) {id : LexModeId} {stop : Nat}
    {token : Token} (hMunches : l.Munches bytes pos id stop token) :
    token.symbol = .eof ∧ token.size = 0 ↔ bytes.length ≤ pos := by
  cases hMunches with
  | eof hEnd => exact ⟨fun _ => hEnd, fun _ => ⟨rfl, rfl⟩⟩
  | inMode hWithin hPicks =>
    exact ⟨fun hEof => absurd hEof.1 (h.picks_ne_eof hNodes hPicks), fun hEnd => absurd hWithin (Nat.not_lt.mpr hEnd)⟩
  | inErrorMode hWithin _ hPicks =>
    exact ⟨fun hEof => absurd hEof.1 (h.picks_ne_eof hNodes hPicks), fun hEnd => absurd hWithin (Nat.not_lt.mpr hEnd)⟩
  | error hWithin => exact ⟨fun hEof => (by cases hEof.1), fun hEnd => absurd hWithin (Nat.not_lt.mpr hEnd)⟩

end Language

/-! ## Room for the generation -/

theorem matchRenewals_le (t : Table) (src : Source σ) (pos : Nat) (set : Array UInt32) (s : LexState σ) :
    matchRenewals t src pos set s ≤ src.size - pos := by
  cases hAny : set.any t.lexNodes.isConsuming with
  | false =>
    rw [(@matchFrom_done _ t src pos pos none _ _ hAny).2]
    exact Nat.zero_le _
  | true =>
    match hChar : src.charAt pos s.input with
    | (none, input) =>
      rw [(@matchFrom_end _ t src pos pos none _ _ _ hAny hChar).2]
      exact Nat.zero_le _
    | (some d, input) =>
      have hPos := Source.lt_size_of_charAt (congrArg Prod.fst hChar)
      have hWidth := d.width_pos
      rw [(@matchFrom_step _ t src pos pos none _ _ _ _ hAny hChar _ _ rfl).2]
      have := matchRenewals_le t src (pos + d.width)
        (t.lexNodes.addNodes (set.toList.filterMap (t.lexNodes.after? d.char)) s.marks.renew #[]).1
        ⟨(t.lexNodes.addNodes (set.toList.filterMap (t.lexNodes.after? d.char)) s.marks.renew #[]).2, input⟩
      omega
termination_by src.size - pos
decreasing_by omega

theorem longestRenewals_le (t : Table) (src : Source σ) (pos : Nat) (tokens : List Symbol) (s : LexState σ) :
    longestRenewals t src pos tokens s ≤ src.size - pos + 1 := by
  rw [longestRenewals]
  have := matchRenewals_le t src pos
    (t.lexNodes.addNodes (tokens.filterMap fun token => (t.lexOf token).start) s.marks.renew #[]).1
    ⟨(t.lexNodes.addNodes (tokens.filterMap fun token => (t.lexOf token).start) s.marks.renew #[]).2, s.input⟩
  dsimp only at this ⊢
  omega

namespace Language

variable (l : Language) (src : Source σ)

theorem internalRenewals_le (pos : Nat) (mode : LexMode) (s : LexState σ) :
    l.internalRenewals src pos mode s ≤ 2 * (src.size - pos + 1) := by
  have hFirst := longestRenewals_le l.table src pos mode.tokens s
  rw [internalRenewals]
  split
  next found s' _ =>
    have hSecond := longestRenewals_le l.table src pos l.keywords s'
    rw [keywordRenewals]
    split <;> omega
  next => omega

theorem skipRenewals_le (stop : Nat) (s : LexState σ) :
    l.skipRenewals src stop s ≤ (src.size - stop) * (src.size - stop) := by
  fun_induction skipRenewals l src stop s with
  | case1 => omega
  | case2 => omega
  | case3 stop s d input hChar next d' input' hNext ih =>
    have hPos := Source.lt_size_of_charAt (congrArg Prod.fst hChar)
    have hWidth := d.width_pos
    have hFirst := longestRenewals_le l.table src next l.errorMode.tokens { s with input := input' }
    have hLess : src.size - next + 1 ≤ src.size - stop := by omega
    have hSquare := Nat.mul_le_mul hLess hLess
    simp only [Nat.add_mul, Nat.mul_add, Nat.mul_one, Nat.one_mul] at hSquare
    split
    next => omega
    next s' _ =>
      have := ih s'
      omega

theorem lexRenewals_le (pos : Nat) (id : LexModeId) (s : LexState σ) :
    l.lexRenewals src pos id s ≤ (src.size - pos + 2) * (src.size - pos + 2) := by
  simp only [Nat.add_mul, Nat.mul_add]
  rw [lexRenewals]
  split
  next => omega
  next input _ =>
    have hFirst := l.internalRenewals_le src pos (l.lexMode id) { s with input }
    split
    next => omega
    next s' _ =>
      have hSkip := l.skipRenewals_le src pos s'
      split
      next => omega
      next =>
        have hSecond := l.internalRenewals_le src pos (l.lexMode errorLexMode) s'
        change _ + (_ + _) ≤ _
        split
        next => omega
        next s'' _ =>
          have hSkip := l.skipRenewals_le src pos s''
          omega

/-- The generation does not wrap where less than 64 KiB are left, whatever the language. -/
theorem lexRenewals_lt {pos : Nat} {id : LexModeId} {s : LexState σ} (hLeft : src.size - pos + 2 < 2 ^ 16) :
    l.lexRenewals src pos id s < 2 ^ 32 := by
  calc l.lexRenewals src pos id s ≤ (src.size - pos + 2) * (src.size - pos + 2) := lexRenewals_le l src pos id s
    _ < 2 ^ 16 * 2 ^ 16 := Nat.mul_lt_mul'' hLeft hLeft
    _ = 2 ^ 32 := by decide

end Language

/-- The lexer is maximal munch with reserved words: on fresh marks it answers with the token that the ways through
the automata call for, at its place in a text below 2^32 bytes, and that is the end of the input only at or past the
end. There are node numbers for 2^32 nodes. -/
theorem lex_munches {g : Grammar} {l : Language} (h : l.BuiltFrom g) (hNodes : l.table.lexNodes.size ≤ 2 ^ 32)
    {src : Source σ} {Ok : σ → Prop} {bytes : List UInt8} (hShort : bytes.length < 2 ^ 32)
    (hServes : src.Serves Ok bytes) {input : σ} (hInput : Ok input) (pos : Nat) (id : LexModeId)
    (state : Option (List UInt8)) (hRoom : l.lexRenewals src pos id ⟨l.lexMarks, input⟩ < 2 ^ 32) :
    (∃ stop, l.Munches bytes pos id stop (l.lex none src pos id state ⟨l.lexMarks, input⟩).1 ∧
      (pos < 2 ^ 32 → (l.lex none src pos id state ⟨l.lexMarks, input⟩).1.start = pos ∧
        (l.lex none src pos id state ⟨l.lexMarks, input⟩).1.stop = stop)) ∧
      ((l.lex none src pos id state ⟨l.lexMarks, input⟩).1.symbol = .eof ∧
        (l.lex none src pos id state ⟨l.lexMarks, input⟩).1.size = 0 ↔ bytes.length ≤ pos) := by
  obtain ⟨stop, hMunches⟩ := h.munches hNodes (Language.lexAutomata_lexed_fresh hServes hInput hRoom)
  exact ⟨⟨stop, hMunches, hMunches.exact hShort⟩, h.munches_eof_iff hNodes hMunches⟩

/-- Words of lower-case letters, of which `if` is a keyword. -/
def Grammar.words : Grammar where
  name := "words"
  tokens := [("word", .plus (.chars ⟨#[('a', 'z')], false⟩))]
  rules := [⟨"s", [.literal "if", .symbol "word"], 0, .none⟩]
  word := some "word"

/-- The table of `Grammar.words`. -/
def Table.words : Table where
  name := "words"
  symbols := #[.endOfInput, ⟨"word", true, true, false, false⟩, ⟨"if", true, false, false, false⟩,
    ⟨"s", true, true, false, false⟩]
  tokenCount := 3
  fields := #[]
  productions := #[⟨⟨3⟩, 2, []⟩]
  stateCount := 4
  actions := #[none, none, some (.shift 1), none, some (.shift 3), none, some .accept, none, none, some (.reduce 0),
    none, none]
  gotos := #[some 2, none, none, none]
  lexNodes := #[.accept ⟨1⟩, .split 2 0, .chars ⟨#[('a', 'z')], false⟩ 1, .accept ⟨2⟩, .chars ⟨#[('f', 'f')], false⟩ 3,
    .chars ⟨#[('i', 'i')], false⟩ 4]
  tokenLex := #[.none, ⟨some 2, false, false⟩, ⟨some 5, true, true⟩]
  extras := []
  externals := []
  start := ⟨3⟩
  word := some ⟨1⟩

def Language.words : Language := .ofValid 0 .words Blob.formatVersion

theorem Language.words_builtFrom : words.BuiltFrom .words := ⟨by cbv, rfl, rfl, rfl⟩

/-- The token at the beginning of the text `if`, a word that spells a keyword. -/
theorem words_munches_if : Language.words.BuiltFrom .words ∧ Language.words.table.lexNodes.size ≤ 2 ^ 32 ∧
    Language.words.lexRenewals (.ofBytes "if".toUTF8) 0 errorLexMode ⟨Language.words.lexMarks, ()⟩ < 2 ^ 32 ∧
    ∃ stop, Language.words.Munches "if".toUTF8.data.toList 0 errorLexMode stop
        (Language.words.lex none (.ofBytes "if".toUTF8) 0 errorLexMode none ⟨Language.words.lexMarks, ()⟩).1 ∧
      (Language.words.lex none (.ofBytes "if".toUTF8) 0 errorLexMode none ⟨Language.words.lexMarks, ()⟩).1.stop = stop := by
  have hNodes : Language.words.table.lexNodes.size ≤ 2 ^ 32 := by decide
  have hRoom : Language.words.lexRenewals (.ofBytes "if".toUTF8) 0 errorLexMode ⟨Language.words.lexMarks, ()⟩ < 2 ^ 32 :=
    Language.lexRenewals_lt _ _ (by decide)
  obtain ⟨⟨stop, hMunches, hExact⟩, _⟩ :=
    lex_munches Language.words_builtFrom hNodes (by decide) (Source.serves_ofBytes "if".toUTF8) trivial 0
      errorLexMode none hRoom
  exact ⟨Language.words_builtFrom, hNodes, hRoom, stop, hMunches, (hExact (by decide)).2⟩

/-- The last one of 2^32 + 1 letters is a token of its own, which ends behind it. The lexer has it end at 1. -/
theorem words_munches_long : ∃ (text : List UInt8) (token : Token), text = List.replicate (2 ^ 32 + 1) 0x62 ∧
    Language.words.lexRenewals (.ofBytes ⟨text.toArray⟩) (2 ^ 32) errorLexMode ⟨Language.words.lexMarks, ()⟩ < 2 ^ 32 ∧
    token = (Language.words.lex none (.ofBytes ⟨text.toArray⟩) (2 ^ 32) errorLexMode none ⟨Language.words.lexMarks, ()⟩).1 ∧
    Language.words.Munches text (2 ^ 32) errorLexMode (2 ^ 32 + 1) token ∧ token.start = 0 ∧ token.stop = 1 := by
  obtain ⟨text, hText⟩ : ∃ text : List UInt8, text = List.replicate (2 ^ 32 + 1) 0x62 := ⟨_, rfl⟩
  have hLength : text.length = 2 ^ 32 + 1 := by rw [hText, List.length_replicate]
  have hServes := Source.serves_ofBytes (σ := Unit) ⟨text.toArray⟩
  have hRoom : Language.words.lexRenewals (.ofBytes ⟨text.toArray⟩) (2 ^ 32) errorLexMode
      ⟨Language.words.lexMarks, ()⟩ < 2 ^ 32 := by
    apply Language.lexRenewals_lt
    change text.length - 2 ^ 32 + 2 < 2 ^ 16
    omega
  obtain ⟨token, hToken⟩ : ∃ token, token =
    (Language.words.lex none (.ofBytes ⟨text.toArray⟩) (2 ^ 32) errorLexMode none ⟨Language.words.lexMarks, ()⟩).1 :=
      ⟨_, rfl⟩
  have hLexed : Language.words.Lexed text (2 ^ 32) errorLexMode token :=
    hToken ▸ Language.lexAutomata_lexed_fresh hServes trivial hRoom
  obtain ⟨stop, hMunches⟩ := Language.words_builtFrom.munches (by decide) hLexed
  have hLt := hMunches.lt (by omega)
  obtain ⟨hStart, hSize, -, hBound⟩ := hMunches.kept
  obtain rfl : stop = 2 ^ 32 + 1 := by omega
  have hStop : token.stop = narrow (2 ^ 32) + narrow (2 ^ 32 + 1 - 2 ^ 32) := by rw [Token.stop, hStart, hSize]
  exact ⟨text, token, hText, hRoom, hToken, hMunches, hStart, hStop⟩

end Reparse
