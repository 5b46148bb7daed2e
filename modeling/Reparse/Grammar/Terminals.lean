import Reparse.Grammar.Lowered
/-!
# Terminals that begin and follow a symbol

`Begins` collects which symbols derive the empty text and which terminals their texts begin with; `follow`
collects the terminals that may come after a symbol. All are least solutions, reached by repeating a
pass over the productions until nothing changes.
-/
namespace Reparse

/-- A set of terminals as the bits of a number. -/
abbrev TerminalSet := Nat

namespace TerminalSet

def single (terminal : Nat) : TerminalSet := 1 <<< terminal

def union (a b : TerminalSet) : TerminalSet := a ||| b

def has (set : TerminalSet) (terminal : Nat) : Bool := set.testBit terminal

end TerminalSet

/-- Applies `step` until it changes nothing, at most `fuel` times. -/
def settle {α : Type} [DecidableEq α] (step : α → α) : Nat → α → α
  | 0, a => a
  | fuel + 1, a =>
    let b := step a
    if b = a then a else settle step fuel b

/-- Per symbol: whether it derives the empty text, and which terminals its texts begin with. -/
structure Begins where
  nullable : Array Bool
  first : Array TerminalSet
  deriving DecidableEq

namespace Begins

def isNullable (b : Begins) (s : Symbol) : Bool := (b.nullable[s.index]?).getD false

def firstOf (b : Begins) (s : Symbol) : TerminalSet := (b.first[s.index]?).getD 0

/-- The terminals that texts of a sequence begin with, and whether it derives the empty text. -/
def ofSeq (b : Begins) : List Symbol → TerminalSet × Bool
  | [] => (0, true)
  | s :: rest =>
    if b.isNullable s then
      let (set, nullable) := b.ofSeq rest
      (.union (b.firstOf s) set, nullable)
    else (b.firstOf s, false)

/-- Adds what a production contributes to its left-hand side. -/
def addProduction (b : Begins) (p : LoweredProduction) : Begins :=
  let (set, nullable) := b.ofSeq p.rhs
  { nullable := b.nullable.modify p.lhs.index (· || nullable)
    first := b.first.modify p.lhs.index (.union · set) }

end Begins

namespace LoweredGrammar

/-- Enough passes for every symbol to gain every terminal, one at a time. -/
def passes (g : LoweredGrammar) : Nat := g.symbols.size * (g.tokenCount.toNat + 1) + 1

/-- Terminals begin with themselves; nothing is known of nonterminals. -/
def initialBegins (g : LoweredGrammar) : Begins where
  nullable := g.symbols.map fun _ => false
  first := g.symbols.mapIdx fun i _ => if i < g.tokenCount.toNat then .single i else 0

def begins (g : LoweredGrammar) : Begins :=
  settle (fun b => g.productions.foldl Begins.addProduction b) g.passes g.initialBegins

/-- The terminals known to follow each symbol. -/
abbrev Follow := Array TerminalSet

def followOf (follow : Follow) (s : Symbol) : TerminalSet := (follow[s.index]?).getD 0

/-- Adds what follows each nonterminal of a right-hand side of `lhs`. -/
def addFollow (g : LoweredGrammar) (b : Begins) (lhs : Symbol) : List Symbol → Follow → Follow
  | [], follow => follow
  | s :: rest, follow =>
    let follow :=
      if g.isTerminal s then follow
      else
        let (set, nullable) := b.ofSeq rest
        let set := if nullable then .union set (followOf follow lhs) else set
        follow.modify s.index (.union · set)
    g.addFollow b lhs rest follow

/-- The end of the input follows the start symbol. -/
def initialFollow (g : LoweredGrammar) : Follow :=
  g.symbols.mapIdx fun i _ => if i = g.start.index then .single Symbol.eof.index else 0

def follow (g : LoweredGrammar) : Follow :=
  let b := g.begins
  settle (fun follow => g.productions.foldl (fun f p => g.addFollow b p.lhs p.rhs f) follow)
    g.passes g.initialFollow

end LoweredGrammar
end Reparse
