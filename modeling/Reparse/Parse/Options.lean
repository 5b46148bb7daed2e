/-!
# Parse options and statistics
-/
namespace Reparse

structure ParseOptions where
  /-- Stop early when the host says that the parse is cancelled. -/
  cancellable : Bool := false
  /-- Stop early once a parse has run for so many seconds. -/
  timeout : Option Nat := none
  /-- Steps between two looks at the conditions for stopping. -/
  checkInterval : UInt32 := 100
  /-- The deepest pop that panic mode considers. -/
  maxPopDepth : Nat := 8
  deriving DecidableEq, Repr

namespace ParseOptions

/-- Looks at the conditions every `steps` steps, at least one. -/
def withCheckInterval (o : ParseOptions) (steps : UInt32) : ParseOptions :=
  { o with checkInterval := if steps = 0 then 1 else steps }

/-- Whether there is any condition for stopping. -/
def canStop (o : ParseOptions) : Bool := o.cancellable || o.timeout.isSome

end ParseOptions

/-- Work done by a parse. -/
structure ParseStats where
  tokensLexed : Nat := 0
  bytesLexed : Nat := 0
  subtreesReused : Nat := 0
  nodesCreated : Nat := 0
  deriving DecidableEq, Repr

end Reparse
