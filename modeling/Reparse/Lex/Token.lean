import Reparse.Lex.Match
/-!
# Tokens

A token is lexed at an offset in the lex mode of a parse state. The grammar's scanner comes first, then
the mode's automata; where none of them matches, every terminal is tried, and where none matches at
all, characters up to the next match are an error token. A word that spells a keyword is that
keyword. Every token records how far past its end the lexer looked.

Positions are counted to the end of the text, but tokens keep their offsets and sizes in 32 bits.
-/
namespace Reparse

/-- An offset or a size as a token keeps it: without what is beyond 32 bits. -/
def narrow (n : Nat) : Nat := n.toUInt32.toNat

theorem narrow_of_lt {n : Nat} (h : n < 4294967296) : narrow n = n := UInt32.toNat_ofNat_of_lt' h

theorem narrow_le (n : Nat) : narrow n ≤ n := Nat.mod_le n _

/-- Offsets in 32 bits are as far apart as their distance in 32 bits says. -/
theorem toNat_sub_toUInt32 {a b : Nat} (h : b ≤ a) : (a.toUInt32 - b.toUInt32).toNat = narrow (a - b) :=
  congrArg UInt32.toNat (UInt32.ofNat_sub h).symm

structure Token where
  symbol : Symbol
  /-- Offsets and sizes are below 2^32. -/
  start : Nat
  size : Nat
  /-- Bytes looked at past the end. -/
  lookahead : Nat
  lexMode : LexModeId
  /-- Input that no token matches. -/
  isError : Bool
  /-- The scanner's state after a token of its own. -/
  scannerState : Option (List UInt8)
  deriving DecidableEq, Repr

def Token.stop (t : Token) : Nat := t.start + t.size

/-- How a scan ended. -/
structure ScanEnd where
  /-- The token's position in the grammar's list of external tokens. -/
  index : Option Nat
  /-- What is left of the scan. -/
  memory : ScanMemory
  /-- The token's end. -/
  stop : Nat
  furthest : Nat

/-- What the lexer of a session carries along: also what is left of the last scan, none before the
first. -/
structure LexSession (σ : Type) extends LexState σ where
  memory : Option ScanMemory

variable {σ : Type}

/-- Shows the characters from `pos` on to a scanner. The token ends at the last mark, or where the scan
stopped. -/
def ExternalScanner.runFrom (scanner : ExternalScanner) (src : Source σ) (pos furthest : Nat)
    (mark : Option Nat) (memory : ScanMemory) (input : σ) : ScanEnd × σ :=
  match _h : src.charAt pos input with
  | (none, input) =>
    let (marks, index, memory) := scanner.onEnd pos memory
    (⟨index, memory, if marks then pos else mark.getD pos, furthest⟩, input)
  | (some d, input) =>
    let furthest := max furthest (pos + d.width)
    match scanner.onChar pos memory d.char with
    | .stop marks index memory =>
      (⟨index, memory, if marks then pos else mark.getD pos, furthest⟩, input)
    | .advance marks memory =>
      scanner.runFrom src (pos + d.width) furthest (if marks then some pos else mark) memory input
termination_by src.size - pos
decreasing_by
  have hPos := Source.lt_size_of_charAt (congrArg Prod.fst _h)
  have := d.width_pos
  omega

namespace Language

/-- The token that the scanner recognizes, if it is valid here, and what is left of the scan. An extra has to
have a size. -/
def lexExternal (l : Language) (scanner : ExternalScanner) (src : Source σ) (pos : Nat) (id : LexModeId)
    (state : Option (List UInt8)) (left : ScanMemory) (input : σ) : (Option Token × ScanMemory) × σ :=
  let valid := (l.lexMode id).externals
  let memory := scanner.start (state.getD []) valid pos left
  let (scan, input) := scanner.runFrom src pos pos none memory input
  let token? := do
    let index ← scan.index
    let symbol ← l.table.externals[index]?
    let stop := max scan.stop pos
    if (valid[index]?).getD false && !(stop == pos && l.isExtra symbol) then
      some {
        symbol
        start := narrow pos
        size := narrow (stop - pos)
        lookahead := narrow (max scan.furthest stop - stop)
        lexMode := id
        isError := false
        scannerState := some (scanner.record scan.memory) : Token }
    else none
  ((token?, scan.memory), input)

def tokenOf (pos : Nat) (found : Found) (id : LexModeId) : Token where
  symbol := found.symbol
  start := narrow pos
  size := narrow (found.stop - pos)
  lookahead := narrow (max found.furthest found.stop - found.stop)
  lexMode := id
  isError := false
  scannerState := none

/-- A word that spells a keyword becomes that keyword. -/
def keywordFor (l : Language) (src : Source σ) (pos : Nat) (found : Found) (s : LexState σ) :
    Found × LexState σ :=
  if l.table.word = some found.symbol then
    match longestMatch l.table src pos l.keywords s with
    | (some keyword, s) =>
      if keyword.stop = found.stop then
        (⟨keyword.symbol, found.stop, max found.furthest keyword.furthest⟩, s)
      else (found, s)
    | (none, s) => (found, s)
  else (found, s)

/-- The longest match among the tokens of a mode, keywords told apart from words. -/
def lexInternal (l : Language) (src : Source σ) (pos : Nat) (mode : LexMode) (id : LexModeId)
    (s : LexState σ) : Option Token × LexState σ :=
  match longestMatch l.table src pos mode.tokens s with
  | (some found, s) =>
    let (found, s) := l.keywordFor src pos found s
    (some (tokenOf pos found id), s)
  | (none, s) => (none, s)

/-- The end of the characters from `stop` on before some terminal matches, at least one of them, and the
furthest offset looked at. -/
def skipFrom (l : Language) (src : Source σ) (stop furthest : Nat) (s : LexState σ) :
    (Nat × Nat) × LexState σ :=
  match _h : src.charAt stop s.input with
  | (none, input) => ((stop, furthest), { s with input })
  | (some d, input) =>
    let next := stop + d.width
    let furthest := max furthest next
    match src.charAt next input with
    | (none, input) => ((next, furthest), { s with input })
    | (some _, input) =>
      match longestMatch l.table src next l.errorMode.tokens { s with input } with
      | (some found, s) => ((next, max furthest found.furthest), s)
      | (none, s) => l.skipFrom src next furthest s
termination_by src.size - stop
decreasing_by
  have hPos := Source.lt_size_of_charAt (congrArg Prod.fst _h)
  have := d.width_pos
  omega

def errorToken (pos stop furthest : Nat) : Token where
  symbol := .error
  start := narrow pos
  size := narrow (stop - pos)
  lookahead := narrow (max furthest stop - stop)
  lexMode := errorLexMode
  isError := true
  scannerState := none

def lexError (l : Language) (src : Source σ) (pos : Nat) (s : LexState σ) : Token × LexState σ :=
  let ((stop, furthest), s) := l.skipFrom src pos pos s
  (errorToken pos stop furthest, s)

def endToken (pos : Nat) (id : LexModeId) : Token where
  symbol := .eof
  start := narrow pos
  size := 0
  lookahead := 0
  lexMode := id
  isError := false
  scannerState := none

/-- The token at `pos` by the automata alone. -/
def lexAutomata (l : Language) (src : Source σ) (pos : Nat) (id : LexModeId) (s : LexState σ) :
    Token × LexState σ :=
  match src.charAt pos s.input with
  | (none, input) => (endToken pos id, { s with input })
  | (some _, input) =>
    match l.lexInternal src pos (l.lexMode id) id { s with input } with
    | (some token, s) => (token, s)
    | (none, s) =>
      if id = errorLexMode then l.lexError src pos s
      else
        match l.lexInternal src pos (l.lexMode errorLexMode) errorLexMode s with
        | (some token, s) => (token, s)
        | (none, s) => l.lexError src pos s

/-- The token at `pos` without the scanner, which leaves what it keeps as it is. -/
def lexUnscanned (l : Language) (src : Source σ) (pos : Nat) (id : LexModeId) (s : LexSession σ) :
    Token × LexSession σ :=
  let (token, lex) := l.lexAutomata src pos id s.toLexState
  (token, { s with toLexState := lex })

/-- The token at `pos` in mode `id`. `state` is the scanner's state after its last token. -/
def lexWith (l : Language) (scanner : Option ExternalScanner) (src : Source σ) (pos : Nat) (id : LexModeId)
    (state : Option (List UInt8)) (s : LexSession σ) : Token × LexSession σ :=
  match scanner with
  | none => l.lexUnscanned src pos id s
  | some scanner =>
    if (l.lexMode id).hasExternals then
      match l.lexExternal scanner src pos id state (s.memory.getD scanner.fresh) s.input with
      | ((some token, memory), input) => (token, { s with input, memory })
      | ((none, memory), input) => l.lexUnscanned src pos id { s with input, memory }
    else l.lexUnscanned src pos id s

/-- The token at `pos`, by a scanner that was not used before. -/
def lex (l : Language) (scanner : Option ExternalScanner) (src : Source σ) (pos : Nat) (id : LexModeId)
    (state : Option (List UInt8)) (s : LexState σ) : Token × LexState σ :=
  let answer := l.lexWith scanner src pos id state { s with memory := none }
  (answer.1, answer.2.toLexState)

/-- The tokens from `pos` on in mode `id`, up to the end and at most `limit`. -/
def lexAllWith (l : Language) (scanner : Option ExternalScanner) (src : Source σ) (id : LexModeId) :
    (limit pos : Nat) → Option (List UInt8) → LexSession σ → List Token
  | 0, _, _, _ => []
  | limit + 1, pos, state, s =>
    let (token, s) := l.lexWith scanner src pos id state s
    if token.symbol = .eof then [token]
    else token :: lexAllWith l scanner src id limit token.stop (token.scannerState <|> state) s

def lexAll (l : Language) (scanner : Option ExternalScanner) (src : Source σ) (id : LexModeId)
    (limit pos : Nat) (state : Option (List UInt8)) (s : LexState σ) : List Token :=
  l.lexAllWith scanner src id limit pos state { s with memory := none }

/-- Marks to begin lexing with. -/
def lexMarks (l : Language) : LexMarks := .ofSize l.table.lexNodes.size

end Language
end Reparse
