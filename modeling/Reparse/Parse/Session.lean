import Reparse.Parse.Balance
import Reparse.Parse.Options
import Reparse.Parse.Recovery
import Reparse.Parse.Reuse
import Reparse.Parse.Stack
import Reparse.Lex.Token
/-!
# Parse sessions

A session parses one text, step by step. The lookahead is a token, a subtree reused from an old tree, or
a token inserted by recovery; the table shifts it, reduces before it or accepts. Where the table has no
action, extras are pushed and anything else is recovered from.

`Session.next` is one step; `Session.run` repeats it.
-/
namespace Reparse

/-- What surrounds a parse: the text, what recovery proposes, and what may stop it. All of it may depend
on a state; reading and recovery may change it. -/
structure Host (σ : Type) where
  source : Source σ
  recover : RecoveryContext → σ → Recovery × σ
  isCancelled : σ → Bool
  /-- Whole seconds since the parse began. -/
  elapsed : σ → Nat
  /-- The state as the conditions for stopping find it before a step: whatever the parse does, another
  thread may cancel it between any two steps, and time goes by. -/
  meanwhile : (steps : Nat) → σ → σ := fun _ s => s

inductive Lookahead where
  | token (t : Token)
  /-- A subtree of the old tree that starts at the current position. -/
  | reused (s : Subtree)
  /-- A token that recovery inserts. -/
  | missing (s : Symbol)

namespace Lookahead

def symbol : Lookahead → Symbol
  | token t => t.symbol
  | reused s => s.symbol
  | missing s => s

def isLexicalError : Lookahead → Bool
  | token t => t.isError
  | _ => false

/-- The end of the lookahead, which starts at `position`. -/
def stop (position : Nat) : Lookahead → Nat
  | token t => t.stop
  | reused s => position + s.size
  | missing _ => position

/-- The end of the text that the lookahead depends on. -/
def extent (position : Nat) : Lookahead → Nat
  | token t => t.stop + t.lookahead
  | reused s => position + s.firstLeafExtent
  | missing _ => position

end Lookahead

/-- What there is to reuse at a position. -/
inductive Reuse where
  | subtree (s : Subtree)
  /-- The candidate followed a reduction that is still to be done, and depends on the text up to
  `extent`. -/
  | reduce (id : ProductionId) (extent : Nat)
  | none

/-- What does not change in the course of a session. -/
structure SessionEnv (σ : Type) where
  language : Language
  host : Host σ
  options : ParseOptions
  /-- Nodes from this number on are built by the session. -/
  firstId : NodeId

structure Session (σ : Type) where
  lex : LexSession σ
  reuse : Option ReuseCursor
  stack : ParseStack
  stats : ParseStats
  steps : Nat
  pending : Option Lookahead
  /-- The lookahead behind an inserted token. -/
  deferred : Option Lookahead
  /-- The position of the last recovery, and how many there were in a row. -/
  recoveries : Option (Nat × Nat)
  /-- The error of the last skip, which the next one may join. -/
  lastSkip : Option Subtree
  /-- Whether the stack was put into an error at the end of the input. -/
  wrapped : Bool
  nextId : NodeId

/-- A session after a step. -/
inductive Progress (σ : Type) where
  | running (s : Session σ)
  | finished (root : Subtree) (status : ParseStatus) (s : Session σ)

/-- Recoveries at one position before skipping is forced. -/
def maxRecoveries : Nat := 3

namespace Session

variable {σ : Type}

def start (marks : LexMarks) (input : σ) (old : Option Tree) (firstId : NodeId) : Session σ where
  lex := { marks, input, memory := none }
  reuse := old.map .ofTree
  stack := []
  stats := {}
  steps := 0
  pending := none
  deferred := none
  recoveries := none
  lastSkip := none
  wrapped := false
  nextId := firstId

def position (s : Session σ) : Nat := s.stack.position

def state (s : Session σ) : StateId := s.stack.state

/-- A number for a new leaf. -/
def takeId (s : Session σ) : NodeId × Session σ := (s.nextId, { s with nextId := s.nextId + 1 })

/-- A number for a new interior node, which is counted. -/
def takeNodeId (s : Session σ) : NodeId × Session σ :=
  (s.nextId, {
    s with
    nextId := s.nextId + 1
    stats := { s.stats with nodesCreated := s.stats.nodesCreated + 1 } })

/-! ## Lookahead -/

def lexAt (env : SessionEnv σ) (s : Session σ) (position : Nat) (mode : LexModeId) : Token × Session σ :=
  let (token, lex) := env.language.lexWith env.language.scanner env.host.source position mode
    s.stack.scannerState s.lex
  let stats := {
    s.stats with
    tokensLexed := s.stats.tokensLexed + 1
    bytesLexed := s.stats.bytesLexed + token.size }
  (token, { s with lex, stats })

/-- Whether a candidate may be reused as far as the text is concerned: it is untouched, without errors
inside or nearby, and its first token would be lexed again in this state. -/
def isReusable (l : Language) (stack : ParseStack) (cursor : ReuseCursor) (candidate : Subtree) : Bool :=
  let info := candidate.info
  !info.hasChanges && !info.hasError && 0 < info.size
    && l.canRelexAs info.firstSymbol info.firstMode (l.lexModeId stack.state)
    && cursor.scannerState == stack.scannerState
    && !cursor.bordersError && !stack.followsError

/-- Moves the cursor to the current position and decides on the candidates there, the largest first.
`moves` bounds the moves of the cursor. -/
def findReuse (l : Language) (stack : ParseStack) : (moves : Nat) → ReuseCursor → Reuse × ReuseCursor
  | 0, cursor => (.none, cursor)
  | moves + 1, cursor =>
    match cursor.current? with
    | none => (.none, cursor)
    | some (candidate, start) =>
      if start < stack.position then
        if start + candidate.size ≤ stack.position then findReuse l stack moves cursor.advance
        else findReuse l stack moves cursor.descend
      else if stack.position < start then (.none, cursor)
      else if isReusable l stack cursor candidate then
        if candidate.isLeaf || (candidate.info.state == stack.state
            && (l.table.goto stack.state candidate.symbol).isSome) then
          (.subtree candidate, cursor.advance)
        else
          match l.table.action stack.state candidate.info.firstSymbol with
          | some (.reduce id) => (.reduce id (start + candidate.firstLeafExtent), cursor)
          | _ => findReuse l stack moves cursor.descend
      else if candidate.isLeaf then
        if candidate.size = 0 then findReuse l stack moves cursor.advance
        else (.none, cursor.advance)
      else findReuse l stack moves cursor.descend

/-- What can be reused here. -/
def reuseHere (env : SessionEnv σ) (s : Session σ) : Reuse × Session σ :=
  match s.reuse with
  | none => (.none, s)
  | some cursor =>
    let (found, cursor) := findReuse env.language s.stack (cursor.moves + 1) cursor
    (found, { s with reuse := some cursor })

/-- The first token from `position` on that is no extra, lexed with all terminals. `limit` bounds the
extras, each of which has a size. -/
def followingFrom (env : SessionEnv σ) : (limit position : Nat) → Session σ → Symbol × Session σ
  | 0, _, s => (.eof, s)
  | limit + 1, position, s =>
    let (token, s) := s.lexAt env position errorLexMode
    if token.isError then (.error, s)
    else if token.symbol = .eof ∨ token.size = 0 ∨ !env.language.isExtra token.symbol then (token.symbol, s)
    else followingFrom env limit token.stop s

/-- The token after a lookahead. -/
def following (env : SessionEnv σ) (s : Session σ) (lookahead : Lookahead) : Symbol × Session σ :=
  followingFrom env (env.host.source.size + 2) (lookahead.stop s.position) s

/-! ## Actions -/

/-- The leaf of a token. -/
def leafOf (env : SessionEnv σ) (s : Session σ) (t : Token) : Subtree × Session σ :=
  let (id, s) := s.takeId
  (.leaf env.language id t.symbol t.size t.lookahead s.state t.lexMode t.scannerState, s)

/-- The leaf that is shifted for a lookahead. A reused leaf is shared unless it was shifted in another
state. -/
def shiftedLeaf (env : SessionEnv σ) (s : Session σ) : Lookahead → Subtree × Session σ
  | .token t => s.leafOf env t
  | .missing symbol =>
    let (id, s) := s.takeId
    (.missingLeaf id symbol s.state (env.language.lexModeId s.state), s)
  | .reused leaf =>
    if leaf.info.state = s.state then (leaf, s)
    else
      let (id, s) := s.takeId
      (leaf.update fun info => { info with id, state := s.state }, s)

def shift (env : SessionEnv σ) (s : Session σ) (next : StateId) (lookahead : Lookahead) : Session σ :=
  let (leaf, s) := s.shiftedLeaf env lookahead
  { s with stack := s.stack.push next leaf }

/-- Replaces the entries of a production's children by a node. The extras above them stay above it, and
its lookahead extends to `extent`. -/
def reduce (env : SessionEnv σ) (s : Session σ) (production : ProductionId) (extent : Nat) : Session σ :=
  let p := env.language.table.production production
  let (trailing, stack) := s.stack.popExtras
  let (children, stack) := stack.popStructural p.childCount.toNat
  let (id, s) := s.takeNodeId
  let node := Subtree.ofChildren env.language id p.lhs children production stack.state
  let node := node.withLookahead (extent - (stack.position + node.size))
  let next := (env.language.table.goto stack.state p.lhs).getD stack.state
  { s with stack := (stack.push next node).pushExtras trailing }

/-- A counted node. -/
def makeNode (env : SessionEnv σ) (s : Session σ) (symbol : Symbol) (children : List Subtree)
    (production : ProductionId) (state : StateId) : Subtree × Session σ :=
  let (id, s) := s.takeNodeId
  (.ofChildren env.language id symbol children production state, s)

/-- A counted error. -/
def makeError (env : SessionEnv σ) (s : Session σ) (children : List Subtree) (state : StateId) :
    Subtree × Session σ :=
  let (id, s) := s.takeNodeId
  (.errorNode env.language id children state, s)

/-- The root: the start symbol's node with the extras around it as further children. -/
def accept (env : SessionEnv σ) (s : Session σ) : Subtree × Session σ :=
  let subtrees := s.stack.subtrees
  let leading := subtrees.takeWhile Subtree.isExtra
  match subtrees.drop leading.length with
  | [] => s.makeNode env env.language.table.start leading noProduction 0
  | root :: trailing =>
    if leading.isEmpty && trailing.isEmpty then (root, s)
    else
      s.makeNode env root.symbol (leading ++ root.children ++ trailing) root.info.production root.info.state

/-! ## Recovery -/

/-- Splits the stack at the error of the last skip: the error, the subtrees above it, and the stack
below, provided that nothing but clean extras came after it. -/
def splitAtSkip (s : Session σ) : Option (Subtree × List Subtree × ParseStack) :=
  match s.lastSkip with
  | none => none
  | some previous =>
    let above := s.stack.takeWhile fun entry => !entry.subtree.same previous
    match s.stack.drop above.length with
    | [] => none
    | _ :: below =>
      if above.all fun entry => entry.subtree.isExtra && !entry.subtree.isError then
        some (previous, ParseStack.subtrees above, below)
      else none

/-- Puts a leaf into an error, joined to the error of the last skip if that comes right before. -/
def skipLeaf (env : SessionEnv σ) (s : Session σ) (leaf : Subtree) : Session σ :=
  let (children, stack) :=
    match s.splitAtSkip with
    | some (previous, between, below) => (previous.children ++ between ++ [leaf], below)
    | none => ([leaf], s.stack)
  let (error, s) := s.makeError env children stack.state
  { s with stack := stack.pushExtra error, lastSkip := some error }

/-- At the end of the input there is nothing to skip: the stack is put into an error and the parse tries
once more from the start; after that an error becomes the root. -/
def skipAtEnd (env : SessionEnv σ) (s : Session σ) : Progress σ :=
  let children := s.stack.subtrees
  let (error, t) := s.makeError env children 0
  if !s.wrapped && children.any fun c => !c.isExtra then
    .running { t with stack := ParseStack.push [] 0 error, lastSkip := none, wrapped := true }
  else
    .finished (error.update fun info => { info with extra := false }) .complete
      { t with stack := [], lastSkip := none }

/-- Moves past the lookahead. -/
def skip (env : SessionEnv σ) (s : Session σ) : Lookahead → Progress σ
  | .token t =>
    if t.isError then
      let (id, s) := s.takeId
      let leaf := Subtree.errorLeaf id t.size t.lookahead s.state t.lexMode
      .running { s with stack := s.stack.pushExtra leaf, lastSkip := none }
    else if t.symbol = .eof then s.skipAtEnd env
    else
      let (leaf, s) := s.leafOf env t
      .running (s.skipLeaf env leaf)
  | .reused subtree => .running (s.skipLeaf env subtree)
  | .missing _ => .running s

/-- Puts the top entries into an error. -/
def popStack (env : SessionEnv σ) (s : Session σ) (depth : Nat) : Session σ :=
  let (popped, stack) := s.stack.popStructural depth
  let (error, s) := s.makeError env popped stack.state
  { s with stack := stack.pushExtra error, lastSkip := some error }

/-- What to do about a lookahead; skipping if recoveries make no progress. -/
def chooseRecovery (env : SessionEnv σ) (s : Session σ) (lookahead : Lookahead) (attempts : Nat) :
    Recovery × Session σ :=
  if maxRecoveries < attempts then (.skip, s)
  else
    let (following, s) := s.following env lookahead
    let context : RecoveryContext := {
      language := env.language
      states := s.stack.structuralStates
      lookahead := lookahead.symbol
      following
      isLexicalError := lookahead.isLexicalError
      position := s.position
      maxPopDepth := env.options.maxPopDepth }
    let (proposed, input) := env.host.recover context s.lex.input
    (context.validate proposed, { s with lex := { s.lex with input } })

/-- How many recoveries in a row there are at this position, with the one that begins now. -/
def attempts (s : Session σ) : Nat :=
  match s.recoveries with
  | some (position, count) => if position = s.position then count + 1 else 1
  | none => 1

def recover (env : SessionEnv σ) (s : Session σ) (lookahead : Lookahead) : Progress σ :=
  let attempts := s.attempts
  let s := { s with recoveries := some (s.position, attempts) }
  let (recovery, s) := s.chooseRecovery env lookahead attempts
  match recovery with
  | .skip => s.skip env lookahead
  | .insert symbol => .running { s with deferred := some lookahead, pending := some (.missing symbol) }
  | .pop depth => .running { s.popStack env depth with pending := some lookahead }

/-! ## Steps -/

/-- What happens to a lookahead for which the state has no action. -/
def withoutAction (env : SessionEnv σ) (s : Session σ) (lookahead : Lookahead) : Progress σ :=
  match lookahead with
  | .token t =>
    if !t.isError && env.language.isExtra t.symbol then
      let (leaf, s) := s.leafOf env t
      .running { s with stack := s.stack.pushExtra leaf }
    else s.recover env lookahead
  | .reused subtree =>
    if subtree.isExtra then .running { s with stack := s.stack.pushExtra subtree }
    else s.recover env lookahead
  | .missing _ => .running s

/-- The action on a lookahead; there is none on unrecognized input. -/
def actionOn (env : SessionEnv σ) (s : Session σ) (lookahead : Lookahead) : Option Action :=
  if lookahead.isLexicalError then none else env.language.table.action s.state lookahead.symbol

/-- Acts on a lookahead that is not a reused interior node. -/
def act (env : SessionEnv σ) (s : Session σ) (lookahead : Lookahead) : Progress σ :=
  match s.actionOn env lookahead with
  | some (.shift next) => .running (s.shift env next lookahead)
  | some (.reduce id) =>
    .running { s.reduce env id (lookahead.extent s.position) with pending := some lookahead }
  | some .accept =>
    let (root, s) := s.accept env
    .finished root .complete s
  | none => s.withoutAction env lookahead

/-- Processes a lookahead. A reused interior node goes straight to the state after it. -/
def step (env : SessionEnv σ) (s : Session σ) (lookahead : Lookahead) : Progress σ :=
  match lookahead with
  | .reused subtree =>
    if subtree.isLeaf then s.act env lookahead
    else
      let next := (env.language.table.goto s.state subtree.symbol).getD s.state
      .running { s with stack := s.stack.push next subtree }
  | _ => s.act env lookahead

/-- The root of a parse that stops: what is on the stack, and an error over the rest of the text, which is
measured in 32 bits. -/
def cancelledRoot (env : SessionEnv σ) (s : Session σ) : Subtree × Session σ :=
  let (stop, input) := env.host.source.endFrom s.position s.lex.input
  let (leafId, t) := s.takeId
  let (id, t) := t.takeId
  let left := stop.toUInt32 - s.position.toUInt32
  let rest := Subtree.errorLeaf leafId left.toNat 0 s.state errorLexMode
  let root := Subtree.ofChildren env.language id env.language.table.start (s.stack.subtrees ++ [rest])
    noProduction 0
  (root, { t with lex := { s.lex with input }, stack := [] })

/-- Whether the conditions for stopping are to be looked at, and hold. The steps are counted in 32 bits. -/
def shouldStop (env : SessionEnv σ) (s : Session σ) : Bool :=
  let interval := if env.options.checkInterval = 0 then 1 else env.options.checkInterval
  let now := env.host.meanwhile s.steps s.lex.input
  env.options.canStop && s.steps.toUInt32 % interval == 0
    && ((env.options.cancellable && env.host.isCancelled now)
      || env.options.timeout.any fun limit => limit ≤ env.host.elapsed now)

/-- The lookahead that waits, or what comes next in the text or the old tree. None is left if a reduction
was done instead. -/
def nextLookahead (env : SessionEnv σ) (s : Session σ) : Option Lookahead × Session σ :=
  match s.pending, s.deferred with
  | some lookahead, _ => (some lookahead, { s with pending := none })
  | none, some lookahead => (some lookahead, { s with deferred := none })
  | none, none =>
    match s.reuseHere env with
    | (.subtree subtree, s) =>
      (some (.reused subtree),
        { s with stats := { s.stats with subtreesReused := s.stats.subtreesReused + 1 } })
    | (.reduce id extent, s) => (none, s.reduce env id extent)
    | (.none, s) =>
      let (token, s) := s.lexAt env s.position (env.language.lexModeId s.state)
      (some (.token token), s)

/-- One step of a session. -/
def next (env : SessionEnv σ) (s : Session σ) : Progress σ :=
  let stops := s.shouldStop env
  let s := { s with steps := s.steps + 1 }
  if stops then
    let (root, s) := s.cancelledRoot env
    .finished root .cancelled s
  else
    match s.nextLookahead env with
    | (some lookahead, s) => s.step env lookahead
    | (none, s) => .running s

/-- At most `limit` steps; none if the session has not finished by then. -/
def run (env : SessionEnv σ) : (limit : Nat) → Session σ → Option (Subtree × ParseStatus × Session σ)
  | 0, _ => none
  | limit + 1, s =>
    match s.next env with
    | .running s => run env limit s
    | .finished root status s => some (root, status, s)

end Session
end Reparse
