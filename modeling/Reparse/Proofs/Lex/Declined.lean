import Reparse.Proofs.Lex.Chunks
import Reparse.Proofs.Lex.Window
/-!
# What a scan looks at

A scan is decided by the characters that it is shown, and `ScanEnd.furthest` is how far they go. The token of a
scanner records that in its window. Where the scanner declines, the token is that of the automata, whose window is
their own: text that only the scan looked at may lie past it, and decides all the same.
-/
namespace Reparse

variable {σ τ : Type} {x y : List UInt8}

/-- A character stands in every text that has the same bytes up to its end. -/
theorem Source.decodeAt_transfer {pos stop : Nat} {d : Decoded} (h : Source.decodeAt x pos = some d)
    (hBytes : WellFormed x pos) (hAgree : Agree x y pos stop) (hStop : pos + d.width ≤ stop) :
    Source.decodeAt y pos = some d := by
  have hSpans : Spans y pos [d.char] (pos + d.width) := Spans.transfer (.cons h (.nil _)) hBytes hAgree hStop
  generalize hEnd : pos + d.width = stop at hSpans
  generalize hChar : d.char = c at hSpans
  cases hSpans with
  | @cons _ _ e _ he hRest =>
    cases hRest with
    | nil =>
      obtain ⟨c, n, hn⟩ := d
      obtain ⟨c', n', hn'⟩ := e
      dsimp only at hChar hEnd
      obtain rfl : c = c' := hChar
      obtain rfl : n = n' := by omega
      exact he

section Scanning

variable {src : Source σ} {src' : Source τ} (scanner : ExternalScanner)

theorem ExternalScanner.furthest_le_runFrom (src : Source σ) (pos furthest : Nat) (mark : Option Nat) (memory : ScanMemory)
    (input : σ) : furthest ≤ (scanner.runFrom src pos furthest mark memory input).1.furthest := by
  fun_induction ExternalScanner.runFrom scanner src pos furthest mark memory input with
  | case1 => exact Nat.le_refl _
  | case2 => exact Nat.le_max_left _ _
  | case3 pos furthest mark memory input d input' hChar furthest' marks memory' hMove ih =>
    exact Nat.le_trans (Nat.le_max_left _ _) ih

variable {Ok : σ → Prop} {Ok' : τ → Prop} (hServes : src.Serves Ok x) (hServes' : src'.Serves Ok' y)
include hServes hServes'

/-- A scan ends alike in every text that has the same bytes up to the furthest character it was shown. -/
theorem ExternalScanner.runFrom_transfer {pos furthest : Nat} (hFurthest : pos ≤ furthest) (mark : Option Nat)
    (memory : ScanMemory) {s : σ} {t : τ} (hs : Ok s) (ht : Ok' t) (hBytes : WellFormed x pos)
    (hAgree : Agree x y pos (scanner.runFrom src pos furthest mark memory s).1.furthest) :
    (scanner.runFrom src' pos furthest mark memory t).1 = (scanner.runFrom src pos furthest mark memory s).1 := by
  generalize hLeft : src.size - pos = left
  induction left using Nat.strongRecOn generalizing pos furthest mark memory s t with
  | ind left ih =>
    have hWithin := scanner.furthest_le_runFrom src pos furthest mark memory s
    obtain ⟨hRead, hs⟩ : (src.charAt pos s).1 = Source.decodeAt x pos ∧ Ok (src.charAt pos s).2 := hServes.charAt_eq hs
    obtain ⟨hRead', ht⟩ : (src'.charAt pos t).1 = Source.decodeAt y pos ∧ Ok' (src'.charAt pos t).2 :=
      hServes'.charAt_eq ht
    rw [ExternalScanner.runFrom_unfold] at hAgree hWithin
    rw [ExternalScanner.runFrom_unfold src, ExternalScanner.runFrom_unfold src']
    generalize hChar : src.charAt pos s = read at hRead hs hAgree hWithin ⊢
    generalize src'.charAt pos t = read' at hRead' ht ⊢
    obtain ⟨d, s'⟩ := read
    obtain ⟨d', t'⟩ := read'
    dsimp only at hRead hRead' hs ht
    cases d with
    | none =>
      -- Both texts have ended.
      have hEnd : y.length ≤ pos :=
        (hAgree.length_le_iff (Nat.le_refl _) (by dsimp only at hWithin ⊢; omega)).mp (Source.decodeAt_eq_none.mp hRead.symm)
      obtain rfl : d' = none := hRead'.trans (Source.decodeAt_eq_none.mpr hEnd)
      rfl
    | some d =>
      obtain ⟨_, hNext, _⟩ := hBytes.next hRead.symm
      have hLess := Source.lt_size_of_charAt (congrArg Prod.fst hChar)
      have hWidth := d.width_pos
      dsimp only at hAgree ⊢
      cases hMove : scanner.onChar pos memory d.char with
      | stop marks index memory =>
        simp only [hMove] at hAgree ⊢
        obtain rfl : d' = some d :=
          hRead'.trans (Source.decodeAt_transfer hRead.symm hBytes hAgree (Nat.le_max_right _ _))
        simp only [hMove]
      | advance marks memory =>
        simp only [hMove] at hAgree ⊢
        have hShown := scanner.furthest_le_runFrom src (pos + d.width) (max furthest (pos + d.width))
          (if marks then some pos else mark) memory s'
        obtain rfl : d' = some d :=
          hRead'.trans (Source.decodeAt_transfer hRead.symm hBytes hAgree (by omega))
        simp only [hMove]
        exact ih _ (by omega) (Nat.le_max_right _ _) _ _ hs ht hNext
          (fun i hi hi' => hAgree i (by omega) hi') rfl

end Scanning

namespace Language

variable {l : Language} {src : Source σ} {src' : Source τ}

/-- The scan that lexing begins with in a mode with external tokens. -/
def scanAt (l : Language) (scanner : ExternalScanner) (src : Source σ) (pos : Nat) (id : LexModeId)
    (state : Option (List UInt8)) (left : ScanMemory) (input : σ) : ScanEnd × σ :=
  scanner.runFrom src pos pos none (scanner.start (state.getD []) (l.lexMode id).externals pos left) input

theorem lexExternal_congr {scanner : ExternalScanner} {pos : Nat} {id : LexModeId} {state : Option (List UInt8)}
    {left : ScanMemory} {input : σ} {input' : τ}
    (h : (l.scanAt scanner src' pos id state left input').1 = (l.scanAt scanner src pos id state left input).1) :
    (l.lexExternal scanner src' pos id state left input').1 = (l.lexExternal scanner src pos id state left input).1 := by
  rw [scanAt, scanAt] at h
  simp only [lexExternal, h]

section Answers

variable {scanner : ExternalScanner} {pos : Nat} {id : LexModeId} {state : Option (List UInt8)} {s : LexState σ}
  (hMode : (l.lexMode id).hasExternals = true)
include hMode

theorem lex_of_scanned {token : Token}
    (h : (l.lexExternal scanner src pos id state scanner.fresh s.input).1.1 = some token) :
    (l.lex (some scanner) src pos id state s).1 = token := by
  dsimp only [lex, lexWith]
  rw [if_pos hMode, Option.getD_none]
  generalize l.lexExternal scanner src pos id state scanner.fresh s.input = answer at h
  obtain ⟨⟨scanned, memory⟩, input⟩ := answer
  obtain rfl : scanned = some token := h
  rfl

theorem lex_of_declined (h : (l.lexExternal scanner src pos id state scanner.fresh s.input).1.1 = none) :
    (l.lex (some scanner) src pos id state s).1 =
      (l.lexAutomata src pos id ⟨s.marks, (l.lexExternal scanner src pos id state scanner.fresh s.input).2⟩).1 := by
  dsimp only [lex, lexWith]
  rw [if_pos hMode, Option.getD_none]
  generalize l.lexExternal scanner src pos id state scanner.fresh s.input = answer at h
  obtain ⟨⟨scanned, memory⟩, input⟩ := answer
  obtain rfl : scanned = none := h
  rfl

end Answers

theorem lex_of_not_external {scanner : ExternalScanner} {pos : Nat} {id : LexModeId} {state : Option (List UInt8)}
    {s : LexState σ} (hMode : (l.lexMode id).hasExternals = false) :
    l.lex (some scanner) src pos id state s = l.lexAutomata src pos id s := by
  dsimp only [lex, lexWith]
  rw [hMode]
  rfl

/-- The token of a scanner records how far the scan looked, in a text below 2^32 bytes. -/
theorem furthest_le_of_lexExternal {Ok : σ → Prop} (hServes : src.Serves Ok x) (hShort : x.length < 2 ^ 32)
    {scanner : ExternalScanner} {pos : Nat} (hPos : pos ≤ x.length) {id : LexModeId} {state : Option (List UInt8)}
    {left : ScanMemory} {input : σ} (hInput : Ok input) {token : Token}
    (h : (l.lexExternal scanner src pos id state left input).1.1 = some token) :
    (l.scanAt scanner src pos id state left input).1.furthest ≤ token.stop + token.lookahead := by
  obtain ⟨hStop, hFurthest, _⟩ := runFrom_fits hServes scanner none
    (scanner.start (state.getD []) (l.lexMode id).externals pos left) hInput (Nat.le_refl x.length) hPos hPos (by simp)
  simp only [lexExternal, Option.bind_eq_bind, Option.bind_eq_some_iff] at h
  obtain ⟨index, _, symbol, _, hToken⟩ := h
  split at hToken
  · obtain rfl := Option.some.inj hToken
    rw [Token.stop, scanAt]
    dsimp only
    rw [narrow_of_lt (by omega), narrow_of_lt (by omega), narrow_of_lt (by omega)]
    omega
  · cases hToken

section Tokens

variable {g : Grammar} (h : l.BuiltFrom g) (hNodes : l.table.lexNodes.size ≤ 2 ^ 32) {Ok : σ → Prop} {Ok' : τ → Prop}
  (hServes : src.Serves Ok x) (hServes' : src'.Serves Ok' y) {pos : Nat} (hBytes : WellFormed x pos) {id : LexModeId}
  (hRoom : ∀ input, Ok input → l.lexRenewals src pos id ⟨l.lexMarks, input⟩ < 2 ^ 32)
  (hRoom' : ∀ input, Ok' input → l.lexRenewals src' pos id ⟨l.lexMarks, input⟩ < 2 ^ 32)
  (hShort : x.length < 2 ^ 32) (hPos : pos ≤ x.length)
include h hNodes hServes hServes' hBytes hRoom hRoom' hShort hPos

theorem BuiltFrom.lexAutomata_transfer {input : σ} {input' : τ} (hInput : Ok input) (hInput' : Ok' input') {token : Token}
    (hToken : (l.lexAutomata src pos id ⟨l.lexMarks, input⟩).1 = token) (hError : token.isError = false)
    (hAgree : Agree x y pos (token.stop + token.lookahead)) :
    (l.lexAutomata src' pos id ⟨l.lexMarks, input'⟩).1 = token := by
  have hLexed : l.Lexed x pos id token :=
    hToken ▸ lexAutomata_lexed_fresh hServes hInput (hRoom input hInput)
  have hLexed' := lexAutomata_lexed_fresh hServes' hInput' (hRoom' input' hInput')
  have hWithin : pos < 2 ^ 32 := Nat.lt_of_le_of_lt hPos hShort
  exact (h.lexed_transfer hNodes hLexed hError hBytes hShort hWithin hAgree).unique hLexed' hError

/-- A token that is no error depends only on its window and on what the scanner was shown, whether the scanner
answered with the token or declined. -/
theorem BuiltFrom.lex_transfer (scanner : ExternalScanner) {state : Option (List UInt8)} {input : σ} {input' : τ}
    (hInput : Ok input) (hInput' : Ok' input') {token : Token}
    (hToken : (l.lex (some scanner) src pos id state ⟨l.lexMarks, input⟩).1 = token) (hError : token.isError = false)
    (hWindow : Agree x y pos (token.stop + token.lookahead))
    (hScan : Agree x y pos (l.scanAt scanner src pos id state scanner.fresh input).1.furthest) :
    (l.lex (some scanner) src' pos id state ⟨l.lexMarks, input'⟩).1 = token := by
  cases hMode : (l.lexMode id).hasExternals with
  | false =>
    rw [lex_of_not_external hMode] at hToken ⊢
    exact h.lexAutomata_transfer hNodes hServes hServes' hBytes hRoom hRoom' hShort hPos hInput hInput' hToken hError hWindow
  | true =>
    have hSame := lexExternal_congr (scanner.runFrom_transfer hServes hServes' (Nat.le_refl pos) none
      (scanner.start (state.getD []) (l.lexMode id).externals pos scanner.fresh) hInput hInput' hBytes hScan)
    obtain ⟨_, hOk⟩ := h.lexExternal_fits hServes scanner pos id state scanner.fresh hInput
    obtain ⟨_, hOk'⟩ := h.lexExternal_fits hServes' scanner pos id state scanner.fresh hInput'
    cases hScanned : (l.lexExternal scanner src pos id state scanner.fresh input).1.1 with
    | some scanned =>
      rw [lex_of_scanned hMode hScanned] at hToken
      rw [lex_of_scanned hMode (hSame ▸ hScanned), hToken]
    | none =>
      rw [lex_of_declined hMode hScanned] at hToken
      rw [lex_of_declined hMode (hSame ▸ hScanned)]
      exact h.lexAutomata_transfer hNodes hServes hServes' hBytes hRoom hRoom' hShort hPos hOk hOk' hToken hError hWindow

theorem BuiltFrom.lexScanned_transfer (scanner : ExternalScanner) {state : Option (List UInt8)} {input : σ} {input' : τ}
    (hInput : Ok input) (hInput' : Ok' input') {token : Token} (hMode : (l.lexMode id).hasExternals = true)
    (hScanned : (l.lexExternal scanner src pos id state scanner.fresh input).1.1 = some token)
    (hError : token.isError = false) (hWindow : Agree x y pos (token.stop + token.lookahead)) :
    (l.lex (some scanner) src' pos id state ⟨l.lexMarks, input'⟩).1 = token := by
  exact h.lex_transfer hNodes hServes hServes' hBytes hRoom hRoom' hShort hPos scanner hInput hInput'
    (lex_of_scanned hMode hScanned) hError hWindow
    (hWindow.mono (furthest_le_of_lexExternal hServes hShort hPos hInput hScanned))

end Tokens

end Language

/-! ## Scanners that look ahead and decline -/

/-- Passes over `count` characters, and recognizes the external token at `index` if `c` follows. -/
def Scanner.probe (count index : Nat) (c : Char) : Scanner where
  start _ _ := [count]
  onChar memory d :=
    match memory with
    | [left + 1] => .advance false [left]
    | _ => .stop false (if d = c then some ⟨index, []⟩ else none)
  onEnd _ := (false, none)

/-- A probe tells by the one character behind those it passes over. -/
theorem Scanner.runFrom_probe {src : Source σ} {Ok : σ → Prop} (hServes : src.Serves Ok x) (index : Nat) (c : Char)
    {pos stop : Nat} {mid : List Char} (hMid : Spans x pos mid stop) {d : Decoded}
    (hLast : Source.decodeAt x stop = some d) (furthest : Nat) {input : σ} (hInput : Ok input) :
    ∃ shown, ((Scanner.probe mid.length index c).external.runFrom src pos furthest none [mid.length] input).1 =
      ⟨if d.char = c then some index else none, [], stop, shown⟩ := by
  suffices hAll : ∀ count, ∃ shown,
      ((Scanner.probe count index c).external.runFrom src pos furthest none [mid.length] input).1 =
        ⟨if d.char = c then some index else none, [], stop, shown⟩ from hAll mid.length
  intro count
  induction hMid generalizing furthest input with
  | nil pos =>
    have hRead : (src.charAt pos input).1 = Source.decodeAt x pos := (hServes.charAt_eq hInput).1
    rw [ExternalScanner.runFrom_unfold]
    generalize src.charAt pos input = read at hRead
    obtain ⟨d', input'⟩ := read
    obtain rfl : d' = some d := hRead.trans hLast
    refine ⟨max furthest (pos + d.width), ?_⟩
    by_cases hChar : d.char = c <;> simp [external, probe, hChar, Scanned.left]
  | @cons pos stop e mid he _ ih =>
    obtain ⟨hRead, hNext⟩ : (src.charAt pos input).1 = Source.decodeAt x pos ∧ Ok (src.charAt pos input).2 :=
      hServes.charAt_eq hInput
    rw [ExternalScanner.runFrom_unfold]
    generalize src.charAt pos input = read at hRead hNext
    obtain ⟨e', input'⟩ := read
    obtain rfl : e' = some e := hRead.trans he
    exact ih hLast _ hNext

namespace Language

theorem lexAutomata_scannerState (l : Language) (src : Source σ) (pos : Nat) (id : LexModeId) (s : LexState σ) :
    (l.lexAutomata src pos id s).1.scannerState = none := by
  have hInternal (mode : LexMode) (id : LexModeId) (s : LexState σ) {token : Token} {s' : LexState σ}
      (hLex : l.lexInternal src pos mode id s = (some token, s')) : token.scannerState = none := by
    rw [lexInternal] at hLex
    split at hLex
    · obtain rfl := Option.some.inj (congrArg Prod.fst hLex)
      rfl
    · cases congrArg Prod.fst hLex
  rw [lexAutomata]
  split
  next => rfl
  next =>
    split
    next token s' hLex => exact hInternal _ _ _ hLex
    next =>
      split
      next => rfl
      next =>
        split
        next token s' hLex => exact hInternal _ _ _ hLex
        next => rfl

section Probing

variable {l : Language} {id : LexModeId} {index : Nat} {symbol : Symbol}
  (hValid : (l.lexMode id).externals[index]? = some true) (hSymbol : l.table.externals[index]? = some symbol)
  {src : Source σ} {Ok : σ → Prop} (hServes : src.Serves Ok x) {pos stop : Nat} {mid : List Char} (hMid : mid ≠ [])
  (hSpans : Spans x pos mid stop) {d : Decoded} (hLast : Source.decodeAt x stop = some d) {input : σ} (hInput : Ok input)
  (state : Option (List UInt8))
include hServes hSpans hLast hInput

theorem lexExternal_probe_declines {c : Char} (hOther : d.char ≠ c) (left : ScanMemory) :
    (l.lexExternal (Scanner.probe mid.length index c) src pos id state left input).1.1 = none := by
  obtain ⟨shown, hScan⟩ := Scanner.runFrom_probe hServes index c hSpans hLast pos hInput
  rw [if_neg hOther] at hScan
  have hStart : (Scanner.probe mid.length index c).external.start (state.getD []) (l.lexMode id).externals pos left =
    [mid.length] := rfl
  simp only [lexExternal, hStart, hScan, Option.bind_eq_bind, Option.bind_none]

include hValid hSymbol hMid

theorem lexExternal_probe_recognizes (left : ScanMemory) : ∃ token,
    (l.lexExternal (Scanner.probe mid.length index d.char) src pos id state left input).1.1 = some token ∧
      token.scannerState = some [] := by
  obtain ⟨shown, hScan⟩ := Scanner.runFrom_probe hServes index d.char hSpans hLast pos hInput
  rw [if_pos rfl] at hScan
  have hLt := hSpans.lt hMid
  have hStop : (max stop pos == pos) = false := beq_eq_false_iff_ne.mpr (by omega)
  have hStart : (Scanner.probe mid.length index d.char).external.start (state.getD []) (l.lexMode id).externals pos left =
    [mid.length] := rfl
  let token : Token := {
    symbol
    start := narrow pos
    size := narrow (max stop pos - pos)
    lookahead := narrow (max shown (max stop pos) - max stop pos)
    lexMode := id
    isError := false
    scannerState := some [] }
  refine ⟨token, ?_, rfl⟩
  simp only [lexExternal, hStart, hScan, Option.bind_eq_bind, Option.bind_some, hSymbol, hValid, Option.getD_some, hStop,
    Bool.false_and, Bool.not_false, Bool.true_and, if_true]
  rfl

end Probing

/-- The window of a token that a scanner left to the automata is not enough. Take a mode that admits an external token
and a text whose token by the automata has a window that ends before the character `d`. Some scanner declines there and
recognizes a token in a text with another character in the place of `d`, although the texts agree on the window. -/
theorem declined_window_misses {l : Language} {id : LexModeId} {index : Nat} {symbol : Symbol}
    (hValid : (l.lexMode id).externals[index]? = some true) (hSymbol : l.table.externals[index]? = some symbol)
    {front mid back back' : List Char} (hMid : mid ≠ []) {c d : Char} (hOther : d ≠ c) {src : Source σ} {Ok : σ → Prop}
    (hServes : src.Serves Ok (Utf8.encode (front ++ mid ++ d :: back))) {input : σ} (hInput : Ok input) {src' : Source τ}
    {Ok' : τ → Prop} (hServes' : src'.Serves Ok' (Utf8.encode (front ++ mid ++ c :: back'))) {input' : τ}
    (hInput' : Ok' input') (state : Option (List UInt8)) {pos : Nat} (hPos : pos = (Utf8.encode front).length)
    (hShort : ∀ input, (l.lexAutomata src pos id ⟨l.lexMarks, input⟩).1.stop +
      (l.lexAutomata src pos id ⟨l.lexMarks, input⟩).1.lookahead < (Utf8.encode (front ++ mid)).length) :
    ∃ (scanner : Scanner) (token : Token), (∀ left, (l.lexExternal scanner src pos id state left input).1.1 = none) ∧
      (l.lex (some scanner.external) src pos id state ⟨l.lexMarks, input⟩).1 = token ∧
      Agree (Utf8.encode (front ++ mid ++ d :: back)) (Utf8.encode (front ++ mid ++ c :: back')) pos
        (token.stop + token.lookahead) ∧
      (l.lex (some scanner.external) src' pos id state ⟨l.lexMarks, input'⟩).1 ≠ token := by
  have hMode : (l.lexMode id).hasExternals = true := List.any_eq_true.mpr ⟨true, List.mem_of_getElem? hValid, rfl⟩
  have hSpans (e : Char) (rest : List Char) : ∃ stop, Spans (Utf8.encode (front ++ mid ++ e :: rest)) pos mid stop ∧
      ∃ read, Source.decodeAt (Utf8.encode (front ++ mid ++ e :: rest)) stop = some read ∧ read.char = e := by
    have hDrop : (Utf8.encode (front ++ mid ++ e :: rest)).drop pos = Utf8.encode mid ++ Utf8.encode (e :: rest) := by
      rw [hPos, List.append_assoc, Utf8.encode_append, Utf8.encode_append, List.drop_left]
    have hBack : (Utf8.encode (front ++ mid ++ e :: rest)).drop (pos + (Utf8.encode mid).length) =
        String.utf8EncodeChar e ++ Utf8.encode rest := by
      rw [← List.drop_drop, hDrop, List.drop_left, Utf8.encode_cons]
    obtain ⟨read, hRead, hChar, _⟩ := Source.decodeAt_encode hBack
    exact ⟨_, .of_encode hDrop, read, hRead, hChar⟩
  obtain ⟨stop, hFront, read, hRead, rfl⟩ := hSpans d back
  obtain ⟨stop', hFront', read', hRead', rfl⟩ := hSpans c back'
  have hDeclined (left : ScanMemory) :
      (l.lexExternal (Scanner.probe mid.length index read'.char) src pos id state left input).1.1 = none :=
    lexExternal_probe_declines hServes hFront hRead hInput state hOther left
  obtain ⟨scanned, hScanned, hState⟩ :=
    lexExternal_probe_recognizes hValid hSymbol hServes' hMid hFront' hRead' hInput' state []
  have hLex := lex_of_declined (s := ⟨l.lexMarks, input⟩) hMode (hDeclined [])
  have hLex' := lex_of_scanned (s := ⟨l.lexMarks, input'⟩) hMode hScanned
  refine ⟨_, _, hDeclined, rfl, ?_, ?_⟩
  · intro i _ hi
    have hBefore : i < (Utf8.encode (front ++ mid)).length := by
      rw [hLex] at hi
      exact Nat.lt_of_le_of_lt hi (hShort _)
    rw [Utf8.encode_append, Utf8.encode_append (front ++ mid), List.getElem?_append_left hBefore,
      List.getElem?_append_left hBefore]
  · intro hEq
    -- Only a scanner's token has a state.
    rw [hLex', hLex] at hEq
    rw [hEq, lexAutomata_scannerState] at hState
    cases hState

end Language

end Reparse
