/-!
# External scanners

A grammar may leave tokens to a scanner of its own: nesting, indentation and the like. A scanner is a
machine that is shown one character after the other. It resumes from the state that the last token it
recognized recorded, so a scan can start anywhere in a text.

An `ExternalScanner` also sees where it is in the text and has fields of its own, which the recorded
state need not determine. A `Scanner` goes by the recorded state and the characters alone.
-/
namespace Reparse

/-- What a scan remembers from one character to the next, and a scanner from one scan to the next. -/
abbrev ScanMemory := List Nat

/-- What a scan does on a character. With `mark`, the token ends before that character, unless a later
mark says otherwise. A scan that stops may have recognized a token: its position in the grammar's list of
external tokens. -/
inductive ScanStep where
  | advance (mark : Bool) (memory : ScanMemory)
  | stop (mark : Bool) (index : Option Nat) (memory : ScanMemory)
  deriving DecidableEq, Repr

structure ExternalScanner where
  /-- Before the first scan. -/
  fresh : ScanMemory
  /-- Restores the recorded state, empty at first, over what is left of the last scan, and begins to scan at
  an offset, where some of the external tokens are valid. -/
  start : (state : List UInt8) → (valid : List Bool) → (offset : Nat) → (left : ScanMemory) → ScanMemory
  onChar : (position : Nat) → ScanMemory → Char → ScanStep
  /-- At the end of the input, where nothing can be consumed: whether the token ends there, the token and
  what is left of the scan. -/
  onEnd : (position : Nat) → ScanMemory → Bool × Option Nat × ScanMemory
  /-- The state to record with a token. -/
  record : ScanMemory → List UInt8

/-! ## Scanners without fields of their own -/

/-- A token recognized by a scanner: its position in the grammar's list of external tokens, and the
scanner's state after it. -/
structure Scanned where
  index : Nat
  state : List UInt8
  deriving DecidableEq, Repr

/-- What such a scan does on a character, or at the end of the input. -/
inductive ScanMove where
  | advance (mark : Bool) (memory : ScanMemory)
  | stop (mark : Bool) (result : Option Scanned)
  deriving DecidableEq, Repr

structure Scanner where
  /-- From the recorded state, empty at first, and the external tokens that are valid here. -/
  start : (state : List UInt8) → (valid : List Bool) → ScanMemory
  onChar : ScanMemory → Char → ScanMove
  /-- At the end of the input, where nothing can be consumed: whether the token ends there, and the
  result. -/
  onEnd : ScanMemory → Bool × Option Scanned

/-- What is left of a scan without fields: the state to record. -/
def Scanned.left (result : Option Scanned) : ScanMemory :=
  match result with
  | some scanned => scanned.state.map UInt8.toNat
  | none => []

namespace Scanner

def external (scanner : Scanner) : ExternalScanner where
  fresh := []
  start state valid _ _ := scanner.start state valid
  onChar _ memory c :=
    match scanner.onChar memory c with
    | .advance mark memory => .advance mark memory
    | .stop mark result => .stop mark (result.map (·.index)) (Scanned.left result)
  onEnd _ memory :=
    let (mark, result) := scanner.onEnd memory
    (mark, result.map (·.index), Scanned.left result)
  record memory := memory.map Nat.toUInt8

instance : Coe Scanner ExternalScanner := ⟨external⟩

instance : Coe (Option Scanner) (Option ExternalScanner) := ⟨Option.map external⟩

end Scanner

end Reparse
