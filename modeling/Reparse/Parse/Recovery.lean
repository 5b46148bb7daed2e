import Reparse.Language
/-!
# Error recovery

When a state has no action on the lookahead, a strategy proposes what to do. It sees the states of the
stack and can try the table on them. A proposal that makes no sense is replaced by skipping, so a
strategy chooses among recoveries and cannot break the tree.
-/
namespace Reparse

inductive Recovery where
  /-- Puts the lookahead into an error and moves past it. -/
  | skip
  /-- Inserts a zero-width token before the lookahead. -/
  | insert (symbol : Symbol)
  /-- Puts the top `depth` structural entries into an error. -/
  | pop (depth : Nat)
  deriving DecidableEq, Repr

structure RecoveryContext where
  language : Language
  /-- States of the structural entries, the top one first, and state 0. -/
  states : List StateId
  lookahead : Symbol
  /-- The token after the lookahead, extras passed over. -/
  following : Symbol
  /-- The lookahead is input that no token matches. -/
  isLexicalError : Bool
  position : Nat
  maxPopDepth : Nat

namespace RecoveryContext

/-- How many structural entries there are to pop. -/
def depth (c : RecoveryContext) : Nat := c.states.length - 1

/-- Bound on the steps of a trial. -/
def maxTrialSteps : Nat := 256

/-- The states after popping `count` of them; the bottom one stays. -/
def popStates (states : List StateId) (count : Nat) : List StateId :=
  states.drop (min count (states.length - 1))

/-- Whether the table shifts all of `symbols` in turn, or accepts, in at most so many steps. -/
def tryShift (t : Table) : (steps : Nat) → List StateId → List Symbol → Bool
  | _, _, [] => true
  | 0, _, _ => false
  | steps + 1, states, s :: rest =>
    match t.action (states.headD 0) s with
    | some (.shift next) => tryShift t steps (next :: states) rest
    | some (.reduce id) =>
      let p := t.production id
      let states := popStates states p.childCount.toNat
      match t.goto (states.headD 0) p.lhs with
      | some next => tryShift t steps (next :: states) (s :: rest)
      | none => false
    | some .accept => true
    | none => false

/-- Whether all of `symbols` would be shifted in turn after popping `depth` structural entries. -/
def accepts (c : RecoveryContext) (depth : Nat) (symbols : List Symbol) : Bool :=
  depth ≤ c.depth && tryShift c.language.table maxTrialSteps (c.states.drop depth) symbols

/-- The terminals with an action after popping `depth` structural entries. -/
def validTerminals (c : RecoveryContext) (depth : Nat) : List Symbol :=
  if depth ≤ c.depth then
    ((c.states[depth]?).map c.language.table.validTerminals).getD []
  else []

/-- Whether a recovery can be carried out. -/
def isValid (c : RecoveryContext) : Recovery → Bool
  | .skip => true
  | .insert s => s != .eof && !s.isError && c.language.isTerminal s && c.accepts 0 [s]
  | .pop depth => 1 ≤ depth && depth ≤ c.depth

/-- The proposal if it can be carried out, skipping otherwise. -/
def validate (c : RecoveryContext) (proposed : Recovery) : Recovery :=
  if c.isValid proposed then proposed else .skip

/-- Whether inserting `s` makes the lookahead fit, and the token after it. -/
def fitsAfter (c : RecoveryContext) (s : Symbol) : Bool :=
  s != .eof && !c.language.isExtra s && c.accepts 0 [s, c.lookahead]
    && (c.lookahead == .eof || c.accepts 0 [s, c.lookahead, c.following])

/-- The strategy unless another one is given. It skips unrecognized input, or the lookahead if the token
after it fits; else it inserts a token that makes both fit; else it pops the fewest entries after
which the lookahead fits; else it skips. -/
def panicMode (c : RecoveryContext) : Recovery :=
  if c.isLexicalError then .skip
  else if c.lookahead != .eof && c.accepts 0 [c.following] then .skip
  else
    match (c.validTerminals 0).find? c.fitsAfter with
    | some s => .insert s
    | none =>
      let depths := (List.range (min c.maxPopDepth c.depth)).map (· + 1)
      match depths.find? fun depth => c.accepts depth [c.lookahead] with
      | some depth => .pop depth
      | none => .skip

end RecoveryContext
end Reparse
