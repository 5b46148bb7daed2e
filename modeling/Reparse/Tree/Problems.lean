import Reparse.Tree.Basic
import Reparse.Diagnostic
/-!
# Problems in a tree

Each outermost error and each missing token is reported once, in source order. A tree whose parse was
stopped also reports the part that was not parsed.
-/
namespace Reparse

namespace Tree

/-- The part that was not parsed. -/
def remainder? (t : Tree) : Option Subtree :=
  if t.isCancelled then t.root.children.getLast?.filter Subtree.isError else none

/-- An error over nothing but one piece of unrecognized input. -/
def isLexical (s : Subtree) : Bool :=
  match s.children with
  | [] => true
  | [only] => only.isError && only.isLeaf
  | _ => false

def errorMessage (l : Language) (first : Symbol) : String :=
  if first = .error then "unexpected input"
  else if l.isNamed first then "unexpected " ++ l.symbolName first
  else "unexpected `" ++ l.symbolName first ++ "`"

def errorProblem (l : Language) (s : Subtree) (range : TextRange) : Diagnostic :=
  if isLexical s then .ofCode .E0101 range
  else .ofMessage .E0201 range (errorMessage l s.info.firstSymbol)

def missingProblem (l : Language) (s : Subtree) (start : Nat) : Diagnostic :=
  .atOffset .E0202 start ("missing `" ++ l.symbolName s.symbol ++ "`")

def remainderProblem (range : TextRange) : Diagnostic :=
  (Diagnostic.ofCode .E0301 range).withHint "parse again without a cancellation token or timeout"

mutual

/-- The problems at and below `s`, which starts at `start`. -/
def problemsFrom (t : Tree) (start : Nat) : Subtree → List Diagnostic
  | .node info children =>
    let s := Subtree.node info children
    let range := TextRange.ofSize start info.size
    if t.remainder?.any s.same then [remainderProblem range]
    else if !info.hasError then []
    else if info.error then [errorProblem t.language s range]
    else if info.missing then [missingProblem t.language s start]
    else problemsAmong t start info.offsets children

def problemsAmong (t : Tree) (start : Nat) : List Nat → List Subtree → List Diagnostic
  | offset :: offsets, c :: rest =>
    problemsFrom t (start + offset) c ++ problemsAmong t start offsets rest
  | _, _ => []

end

def problems (t : Tree) : List Diagnostic := t.problemsFrom 0 t.root

end Tree
end Reparse
