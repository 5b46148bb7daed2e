import Reparse.Parse.Session
import Reparse.Proofs.Lex.Bounds
import Reparse.Proofs.Parse.Stack
/-!
# Steps of a session

What a step of a session can do, said once: `Takes` for where the lookahead comes from and `Acts` for what
happens to it. `Session.reduction?` tells by which production a step reduces.
-/
namespace Reparse

variable {σ : Type}

/-- The source of the host serves a text, whatever the host is asked about recoveries. -/
structure Host.Serves (host : Host σ) (Ok : σ → Prop) (bytes : List UInt8) : Prop
    extends host.source.Serves Ok bytes where
  recover : ∀ context s, Ok s → Ok (host.recover context s).2

/-- Lexing and asking for recoveries leave the host in states with the property. -/
structure SessionEnv.Keeps (env : SessionEnv σ) (Ok : σ → Prop) : Prop where
  lex : ∀ pos id state (s : LexSession σ), Ok s.input →
    Ok (env.language.lexWith env.language.scanner env.host.source pos id state s).2.input
  recover : ∀ context s, Ok s → Ok (env.host.recover context s).2

theorem Host.Serves.keeps {env : SessionEnv σ} {Ok : σ → Prop} {bytes : List UInt8} {g : Grammar}
    (h : env.host.Serves Ok bytes) (hBuilt : env.language.BuiltFrom g) : env.Keeps Ok where
  lex pos id state _ hInput := (hBuilt.lexWith_fits h.toServes env.language.scanner pos id state hInput).2
  recover := h.recover

theorem SessionEnv.keeps_true (env : SessionEnv σ) : env.Keeps fun _ => True := ⟨fun _ _ _ _ _ => trivial, fun _ _ _ => trivial⟩

/-- The cursor is moved forward so far. -/
inductive ReuseCursor.Moves (c : ReuseCursor) : ReuseCursor → Prop
  | refl : Moves c c
  | advance {c' : ReuseCursor} : Moves c c' → c'.current?.isSome = true → Moves c c'.advance
  | descend {c' : ReuseCursor} : Moves c c' → c'.current?.isSome = true → Moves c c'.descend

theorem ReuseCursor.Moves.trans {a b c : ReuseCursor} (hab : a.Moves b) (hbc : b.Moves c) : a.Moves c := by
  induction hbc with
  | refl => exact hab
  | advance _ hCurrent ih => exact ih.advance hCurrent
  | descend _ hCurrent ih => exact ih.descend hCurrent

/-! ## Reductions -/

/-- The production that an action reduces by. -/
def Action.reduction? : Action → Option ProductionId
  | .reduce id => some id
  | _ => none

/-- The production of a reduction that a search asks for. -/
def Reuse.reduction? : Reuse → Option ProductionId
  | .reduce id _ => some id
  | _ => .none

/-- A subtree that goes straight to the state after it. -/
def Lookahead.isInterior : Lookahead → Bool
  | .reused subtree => !subtree.isLeaf
  | _ => false

/-- A token that recovery inserts. -/
def Lookahead.isMissing : Lookahead → Bool
  | .missing _ => true
  | _ => false

namespace Session

/-- The production that a lookahead makes the session reduce by, if it does. -/
def reductionOn? (env : SessionEnv σ) (s : Session σ) (la : Lookahead) : Option ProductionId :=
  if la.isInterior then none else (s.actionOn env la).bind Action.reduction?

/-- The production that the next step reduces by, if it does. -/
def reduction? (env : SessionEnv σ) (s : Session σ) : Option ProductionId :=
  let stops := s.shouldStop env
  let s := { s with steps := s.steps + 1 }
  if stops then none
  else
    match s.nextLookahead env with
    | (some la, s) => s.reductionOn? env la
    | (none, _) => (s.reuseHere env).1.reduction?

theorem actionOn_eq_some {env : SessionEnv σ} {s : Session σ} {la : Lookahead} {a : Action}
    (h : s.actionOn env la = some a) :
    la.isLexicalError = false ∧ env.language.table.action s.state la.symbol = some a := by
  rw [actionOn] at h
  split at h
  · cases h
  next hError => exact ⟨by simpa using hError, h⟩

/-! ## Reuse -/

/-- What a search from a cursor finds, with the cursor after it. -/
inductive Finds (l : Language) (stack : ParseStack) (c : ReuseCursor) : Reuse × ReuseCursor → Prop
  | none {c' : ReuseCursor} : c.Moves c' → Finds l stack c (.none, c')
  | subtree {c' : ReuseCursor} {candidate : Subtree} : c.Moves c' →
    c'.current? = some (candidate, stack.position) → isReusable l stack c' candidate = true →
    (candidate.isLeaf = true ∨ (l.table.goto stack.state candidate.symbol).isSome = true) →
    Finds l stack c (.subtree candidate, c'.advance)
  | reduce {c' : ReuseCursor} {candidate : Subtree} {id : ProductionId} : c.Moves c' →
    c'.current? = some (candidate, stack.position) →
    l.table.action stack.state candidate.info.firstSymbol = some (.reduce id) →
    Finds l stack c (.reduce id (stack.position + candidate.firstLeafExtent), c')

theorem Finds.of_moves {l : Language} {stack : ParseStack} {a b : ReuseCursor} {found : Reuse × ReuseCursor}
    (h : Finds l stack b found) (hMoves : a.Moves b) : Finds l stack a found := by
  cases h with
  | none h => exact .none (hMoves.trans h)
  | subtree h hCurrent hReusable hTaken => exact .subtree (hMoves.trans h) hCurrent hReusable hTaken
  | reduce h hCurrent hAction => exact .reduce (hMoves.trans h) hCurrent hAction

theorem finds_findReuse (l : Language) (stack : ParseStack) (moves : Nat) (c : ReuseCursor) :
    Finds l stack c (findReuse l stack moves c) := by
  fun_induction findReuse l stack moves c with
  | case1 => exact .none .refl
  | case2 => exact .none .refl
  | case3 moves c candidate start hCurrent _ _ ih => exact ih.of_moves (.advance .refl (by rw [hCurrent]; rfl))
  | case4 moves c candidate start hCurrent _ _ ih => exact ih.of_moves (.descend .refl (by rw [hCurrent]; rfl))
  | case5 => exact .none .refl
  | case6 moves c candidate start hCurrent hBefore hAfter hReusable hTaken =>
    obtain rfl : start = stack.position := by omega
    refine .subtree .refl hCurrent hReusable ?_
    simp only [Bool.or_eq_true, Bool.and_eq_true] at hTaken
    exact hTaken.imp_right And.right
  | case7 moves c candidate start hCurrent hBefore hAfter hReusable hTaken id hAction =>
    obtain rfl : start = stack.position := by omega
    exact .reduce .refl hCurrent hAction
  | case8 moves c candidate start hCurrent _ _ _ _ _ ih => exact ih.of_moves (.descend .refl (by rw [hCurrent]; rfl))
  | case9 moves c candidate start hCurrent _ _ _ _ _ ih => exact ih.of_moves (.advance .refl (by rw [hCurrent]; rfl))
  | case10 moves c candidate start hCurrent => exact .none (.advance .refl (by rw [hCurrent]; rfl))
  | case11 moves c candidate start hCurrent _ _ _ _ ih => exact ih.of_moves (.descend .refl (by rw [hCurrent]; rfl))

/-! ## Lookaheads -/

/-- Where the next lookahead comes from, with the session after it was taken; none if a reduction by the
production was done instead. -/
inductive Takes (env : SessionEnv σ) (s : Session σ) : Option Lookahead → Option ProductionId → Session σ → Prop
  | pending {la : Lookahead} : s.pending = some la → Takes env s (some la) none { s with pending := none }
  | deferred {la : Lookahead} : s.pending = none → s.deferred = some la →
    Takes env s (some la) none { s with deferred := none }
  | reused {c c' : ReuseCursor} {subtree : Subtree} {stats : ParseStats} : s.pending = none → s.deferred = none →
    s.reuse = some c → Finds env.language s.stack c (.subtree subtree, c') →
    Takes env s (some (.reused subtree)) none { s with reuse := some c', stats }
  | reduced {c c' : ReuseCursor} {id : ProductionId} {extent : Nat} : s.pending = none → s.deferred = none →
    s.reuse = some c → Finds env.language s.stack c (.reduce id extent, c') →
    Takes env s none (some id) (reduce env { s with reuse := some c' } id extent)
  | lexed {reuse : Option ReuseCursor} {lex : LexSession σ} {stats : ParseStats} {token : Token} :
    s.pending = none → s.deferred = none → Option.Rel ReuseCursor.Moves s.reuse reuse →
    env.language.lexWith env.language.scanner env.host.source s.position (env.language.lexModeId s.state)
      s.stack.scannerState s.lex = (token, lex) →
    Takes env s (some (.token token)) none { s with reuse, lex, stats }

theorem takes_nextLookahead (env : SessionEnv σ) (s : Session σ) :
    Takes env s (s.nextLookahead env).1
      (if (s.nextLookahead env).1.isSome then none else (s.reuseHere env).1.reduction?) (s.nextLookahead env).2 := by
  rw [nextLookahead]
  split
  next la hPending => exact .pending hPending
  next la hPending hDeferred => exact .deferred hPending hDeferred
  next hPending hDeferred =>
    cases hReuse : s.reuse with
    | none =>
      have hHere : s.reuseHere env = (.none, s) := by rw [reuseHere, hReuse]
      rw [hHere]
      exact .lexed hPending hDeferred (by rw [hReuse]; exact .none) rfl
    | some c =>
      have hFinds := finds_findReuse env.language s.stack (c.moves + 1) c
      have hHere : s.reuseHere env = ((findReuse env.language s.stack (c.moves + 1) c).1,
          { s with reuse := some (findReuse env.language s.stack (c.moves + 1) c).2 }) := by rw [reuseHere, hReuse]
      generalize findReuse env.language s.stack (c.moves + 1) c = found at hFinds hHere
      rw [hHere]
      cases hFinds with
      | none hMoves => exact .lexed hPending hDeferred (by rw [hReuse]; exact .some hMoves) rfl
      | subtree hMoves hCurrent hReusable hTaken =>
        exact .reused hPending hDeferred hReuse (.subtree hMoves hCurrent hReusable hTaken)
      | reduce hMoves hCurrent hAction => exact .reduced hPending hDeferred hReuse (.reduce hMoves hCurrent hAction)

/-! ## Stacks taken apart -/

/-- A reduction puts a node over the entries of its children and pushes the extras from above them again. -/
theorem reduce_eq (env : SessionEnv σ) (s : Session σ) (id : ProductionId) (extent : Nat) :
    ∃ top children below, s.stack = top ++ (children ++ below) ∧
      (∀ e ∈ top, e.subtree.isExtra = true) ∧
      ParseStack.splitStructural (env.language.table.production id).childCount.toNat (children ++ below) =
        (children, below) ∧
      s.reduce env id extent = {
        s with
        stack := ParseStack.pushExtras (ParseStack.push below
          ((env.language.table.goto (ParseStack.state below) (env.language.table.production id).lhs).getD
            (ParseStack.state below))
          ((Subtree.ofChildren env.language s.nextId (env.language.table.production id).lhs
            (ParseStack.subtrees children) id (ParseStack.state below)).withLookahead
              (extent - (ParseStack.position below + Subtree.totalOf Subtree.size (ParseStack.subtrees children)))))
            (ParseStack.subtrees top)
        nextId := s.nextId + 1
        stats := { s.stats with nodesCreated := s.stats.nodesCreated + 1 } } := by
  obtain ⟨top, hTop, hTrailing, hExtras⟩ := s.stack.popExtras_eq
  have hSplit := ParseStack.splitStructural_append (env.language.table.production id).childCount.toNat s.stack.popExtras.2
  generalize hParts : ParseStack.splitStructural (env.language.table.production id).childCount.toNat s.stack.popExtras.2 =
    parts at hSplit
  obtain ⟨children, below⟩ := parts
  have hPopped : s.stack.popExtras.2.popStructural (env.language.table.production id).childCount.toNat =
      (ParseStack.subtrees children, below) := by
    rw [ParseStack.popStructural, hParts]
  have hStructural : ParseStack.splitStructural (env.language.table.production id).childCount.toNat (children ++ below) =
      (children, below) := by
    rw [hSplit, hParts]
  refine ⟨top, children, below, hSplit.symm ▸ hTop, hExtras, hStructural, ?_⟩
  rw [reduce]
  simp only [hPopped, hTrailing]
  rfl

/-- The root of a parse that accepts: what is no extra on the stack, with the extras around it as further children. -/
inductive Roots (env : SessionEnv σ) (s : Session σ) : Subtree × Session σ → Prop
  | extras : Roots env s (s.makeNode env env.language.table.start s.stack.subtrees noProduction 0)
  | alone {root : Subtree} : s.stack.subtrees = [root] → Roots env s (root, s)
  | wrapped {leading trailing : List Subtree} {root : Subtree} : s.stack.subtrees = leading ++ root :: trailing →
    (∀ x ∈ leading, x.isExtra = true) → root.isExtra = false →
    Roots env s (s.makeNode env root.symbol (leading ++ root.children ++ trailing) root.info.production root.info.state)

theorem roots_accept (env : SessionEnv σ) (s : Session σ) : Roots env s (s.accept env) := by
  have hParts := List.takeWhile_append_dropWhile (p := Subtree.isExtra) (l := s.stack.subtrees)
  have hHead := List.head?_dropWhile_not Subtree.isExtra s.stack.subtrees
  have hLeading : ∀ x ∈ s.stack.subtrees.takeWhile Subtree.isExtra, x.isExtra = true := fun x hx =>
    List.mem_takeWhile_imp (p := Subtree.isExtra) hx
  rw [accept]
  simp only [drop_length_takeWhile]
  generalize s.stack.subtrees.takeWhile Subtree.isExtra = leading at hParts hLeading
  generalize s.stack.subtrees.dropWhile Subtree.isExtra = others at hParts hHead
  rcases others with _ | ⟨root, trailing⟩
  · rw [List.append_nil] at hParts
    rw [hParts]
    exact .extras
  · dsimp only
    split
    next hAlone =>
      simp only [Bool.and_eq_true, List.isEmpty_iff] at hAlone
      obtain ⟨rfl, rfl⟩ := hAlone
      exact .alone hParts.symm
    next => exact .wrapped hParts.symm hLeading (by simpa using hHead)

theorem popStack_eq (env : SessionEnv σ) (s : Session σ) (depth : Nat) :
    ∃ top below, s.stack = top ++ below ∧ ParseStack.splitStructural depth s.stack = (top, below) ∧
      s.popStack env depth = {
        s with
        stack := below.pushExtra
          (.errorNode env.language s.nextId (ParseStack.subtrees top) (ParseStack.state below))
        lastSkip := some (.errorNode env.language s.nextId (ParseStack.subtrees top) (ParseStack.state below))
        nextId := s.nextId + 1
        stats := { s.stats with nodesCreated := s.stats.nodesCreated + 1 } } := by
  have hSplit := ParseStack.splitStructural_append depth s.stack
  generalize hParts : ParseStack.splitStructural depth s.stack = parts at hSplit
  obtain ⟨top, below⟩ := parts
  refine ⟨top, below, hSplit.symm, rfl, ?_⟩
  rw [popStack, ParseStack.popStructural, hParts]
  rfl

/-- The error of the last skip is found again under extras. -/
theorem splitAtSkip_eq {s : Session σ} {previous : Subtree} {between : List Subtree} {below : ParseStack}
    (h : s.splitAtSkip = some (previous, between, below)) :
    ∃ above entry, s.stack = above ++ entry :: below ∧ between = ParseStack.subtrees above ∧
      s.lastSkip = some previous ∧ entry.subtree.id = previous.id := by
  rw [splitAtSkip] at h
  split at h
  · cases h
  next last hLast =>
    dsimp only at h
    split at h
    · cases h
    next entry rest hDrop =>
      split at h
      · simp only [Option.some.injEq, Prod.mk.injEq] at h
        obtain ⟨rfl, rfl, rfl⟩ := h
        have hStack := List.takeWhile_append_dropWhile (p := fun e : StackEntry => !e.subtree.same last) (l := s.stack)
        have hRest : s.stack.dropWhile (fun e => !e.subtree.same last) = entry :: rest := by
          rw [← hDrop, drop_length_takeWhile]
        refine ⟨_, entry, by rw [← hRest]; exact hStack.symm, rfl, hLast, ?_⟩
        have hHead := List.head?_dropWhile_not (fun e : StackEntry => !e.subtree.same last) s.stack
        rw [hRest] at hHead
        simpa [Subtree.same] using hHead
      · cases h

/-- A skipped leaf goes into an error over it, the children of the last skip's error and what is on the stack above that. -/
theorem skipLeaf_eq (env : SessionEnv σ) (s : Session σ) (leaf : Subtree) :
    ∃ top below children, s.stack = top ++ below ∧
      (∀ c ∈ children, c = leaf ∨ c ∈ s.stack.subtrees ∨ ∃ x, s.lastSkip = some x ∧ c ∈ x.children) ∧
      s.skipLeaf env leaf = {
        s with
        stack := below.pushExtra (.errorNode env.language s.nextId children (ParseStack.state below))
        lastSkip := some (.errorNode env.language s.nextId children (ParseStack.state below))
        nextId := s.nextId + 1
        stats := { s.stats with nodesCreated := s.stats.nodesCreated + 1 } } := by
  rw [skipLeaf]
  cases hSplit : s.splitAtSkip with
  | none =>
    refine ⟨[], s.stack, [leaf], rfl, ?_, rfl⟩
    exact fun c hc => .inl (List.mem_singleton.mp hc)
  | some parts =>
    obtain ⟨previous, between, below⟩ := parts
    obtain ⟨above, entry, hStack, rfl, hLast, -⟩ := splitAtSkip_eq hSplit
    refine ⟨above ++ [entry], below, previous.children ++ ParseStack.subtrees above ++ [leaf], ?_, ?_, rfl⟩
    · rw [hStack, List.append_cons]
    · intro c hc
      simp only [List.mem_append, List.mem_singleton] at hc
      rcases hc with (hc | hc) | rfl
      · exact .inr (.inr ⟨previous, hLast, hc⟩)
      · exact .inr (.inl (by simp [hStack, hc]))
      · exact .inl rfl

/-! ## Actions -/

/-- The leaf that stands for a lookahead on the stack, with the number of the next node. -/
inductive Stands (env : SessionEnv σ) (s : Session σ) : Lookahead → Subtree → NodeId → Prop
  | token (t : Token) : Stands env s (.token t)
    (.leaf env.language s.nextId t.symbol t.size t.lookahead s.state t.lexMode t.scannerState) (s.nextId + 1)
  | missing (symbol : Symbol) : Stands env s (.missing symbol)
    (.missingLeaf s.nextId symbol s.state (env.language.lexModeId s.state)) (s.nextId + 1)
  | shared (leaf : Subtree) : Stands env s (.reused leaf) leaf s.nextId

/-- The leaf that is shifted: a reused one is copied if it was shifted in another state before. -/
inductive Leaves (env : SessionEnv σ) (s : Session σ) : Lookahead → Subtree → NodeId → Prop
  | stands {la : Lookahead} {leaf : Subtree} {nextId : NodeId} : Stands env s la leaf nextId →
    Leaves env s la leaf nextId
  | restated (leaf : Subtree) : Leaves env s (.reused leaf)
    (leaf.update fun info => { info with id := s.nextId, state := s.state }) (s.nextId + 1)

theorem leaves_shiftedLeaf (env : SessionEnv σ) (s : Session σ) (la : Lookahead) :
    ∃ leaf nextId, s.shiftedLeaf env la = (leaf, { s with nextId }) ∧ Leaves env s la leaf nextId := by
  cases la with
  | token t => exact ⟨_, _, rfl, .stands (.token t)⟩
  | missing symbol => exact ⟨_, _, rfl, .stands (.missing symbol)⟩
  | reused leaf =>
    rw [shiftedLeaf]
    split
    · exact ⟨leaf, s.nextId, rfl, .stands (.shared leaf)⟩
    · exact ⟨_, _, rfl, .restated leaf⟩

/-- The session once a recovery is chosen: what was read ahead may have changed the lexer. -/
inductive Asks (Ok : σ → Prop) (s : Session σ) : Session σ → Prop
  | mk {lex : LexSession σ} {stats : ParseStats} : (Ok s.lex.input → Ok lex.input) →
    Asks Ok s { s with lex, stats, recoveries := some (s.position, s.attempts) }

/-- What happens to a lookahead, with the production if that is a reduction. -/
inductive Acts (env : SessionEnv σ) (Ok : σ → Prop) (s : Session σ) :
    Lookahead → Option ProductionId → Progress σ → Prop
  | interior {subtree : Subtree} : subtree.isLeaf = false →
    Acts env Ok s (.reused subtree) none (.running
      { s with stack := s.stack.push ((env.language.table.goto s.state subtree.symbol).getD s.state) subtree })
  | shift {la : Lookahead} {next : StateId} {leaf : Subtree} {nextId : NodeId} : la.isInterior = false →
    s.actionOn env la = some (.shift next) → Leaves env s la leaf nextId →
    Acts env Ok s la none (.running { s with stack := s.stack.push next leaf, nextId })
  | reduce {la : Lookahead} {id : ProductionId} : la.isInterior = false → s.actionOn env la = some (.reduce id) →
    Acts env Ok s la (some id) (.running { s.reduce env id (la.extent s.position) with pending := some la })
  | accept {la : Lookahead} : la.isInterior = false → s.actionOn env la = some .accept →
    Acts env Ok s la none (.finished (s.accept env).1 .complete (s.accept env).2)
  | extra {la : Lookahead} {leaf : Subtree} {nextId : NodeId} : la.isInterior = false → s.actionOn env la = none →
    Stands env s la leaf nextId → leaf.isExtra = true →
    Acts env Ok s la none (.running { s with stack := s.stack.pushExtra leaf, nextId })
  | dropped {symbol : Symbol} : Acts env Ok s (.missing symbol) none (.running s)
  | insert {la : Lookahead} {r : Session σ} {symbol : Symbol} : la.isInterior = false → la.isMissing = false →
    Asks Ok s r → s.attempts ≤ maxRecoveries → env.language.table.IsToken symbol →
    Acts env Ok s la none (.running { r with deferred := some la, pending := some (.missing symbol) })
  | pop {la : Lookahead} {r : Session σ} {depth : Nat} : la.isInterior = false → la.isMissing = false →
    Asks Ok s r → s.attempts ≤ maxRecoveries → 0 < depth → depth < s.stack.structuralStates.length →
    Acts env Ok s la none (.running { r.popStack env depth with pending := some la })
  | skipError {t : Token} {r : Session σ} : Asks Ok s r → t.isError = true →
    Acts env Ok s (.token t) none (.running {
      r with
      stack := s.stack.pushExtra (.errorLeaf s.nextId t.size t.lookahead s.state t.lexMode)
      lastSkip := none
      nextId := s.nextId + 1 })
  | skip {la : Lookahead} {leaf : Subtree} {nextId : NodeId} {r : Session σ} : la.isInterior = false →
    la.isMissing = false → Asks Ok s r → (∀ t, la = .token t → t.symbol ≠ .eof) → Stands env s la leaf nextId →
    Acts env Ok s la none (.running (skipLeaf env { r with nextId } leaf))
  | wrap {t : Token} {r : Session σ} : Asks Ok s r → t.symbol = .eof → s.wrapped = false →
    Acts env Ok s (.token t) none (.running {
      (r.makeError env s.stack.subtrees 0).2 with
      stack := ParseStack.push [] 0 (r.makeError env s.stack.subtrees 0).1
      lastSkip := none
      wrapped := true })
  | giveUp {t : Token} {r : Session σ} : Asks Ok s r → t.symbol = .eof →
    Acts env Ok s (.token t) none (.finished
      ((r.makeError env s.stack.subtrees 0).1.update fun info => { info with extra := false }) .complete
      { (r.makeError env s.stack.subtrees 0).2 with stack := [], lastSkip := none })

variable {env : SessionEnv σ} {Ok : σ → Prop} {bytes : List UInt8} {g : Grammar} {s t : Session σ}

theorem followingFrom_eq (hKeeps : env.Keeps Ok)
    (limit position : Nat) (s : Session σ) : ∃ lex stats,
      (followingFrom env limit position s).2 = { s with lex, stats } ∧ (Ok s.lex.input → Ok lex.input) := by
  induction limit generalizing position s with
  | zero => exact ⟨s.lex, s.stats, rfl, id⟩
  | succ limit ih =>
    have hLex (hInput : Ok s.lex.input) : Ok (s.lexAt env position errorLexMode).2.lex.input :=
      hKeeps.lex position errorLexMode s.stack.scannerState s.lex hInput
    rw [followingFrom]
    dsimp only
    split
    · exact ⟨_, _, rfl, hLex⟩
    split
    · exact ⟨_, _, rfl, hLex⟩
    · obtain ⟨lex, stats, hEq, hOk⟩ := ih (s.lexAt env position errorLexMode).1.stop (s.lexAt env position errorLexMode).2
      exact ⟨lex, stats, hEq, fun hInput => hOk (hLex hInput)⟩

/-- A recovery that can be carried out after so many attempts. -/
def Carries (l : Language) (states : List StateId) (attempts : Nat) : Recovery → Prop
  | .skip => True
  | .insert symbol => attempts ≤ maxRecoveries ∧ l.table.IsToken symbol
  | .pop depth => attempts ≤ maxRecoveries ∧ 0 < depth ∧ depth < states.length

theorem carries_validate {c : RecoveryContext} {attempts : Nat} (hAttempts : attempts ≤ maxRecoveries)
    (proposed : Recovery) : Carries c.language c.states attempts (c.validate proposed) := by
  rw [RecoveryContext.validate]
  split
  next hValid =>
    cases proposed with
    | skip => trivial
    | insert symbol =>
      simp only [RecoveryContext.isValid, Bool.and_eq_true, bne_iff_ne, Bool.not_eq_true', Language.isTerminal,
        Bool.or_eq_true] at hValid
      obtain ⟨⟨⟨hEof, hError⟩, hTerminal⟩, _⟩ := hValid
      refine ⟨hAttempts, hTerminal.resolve_left ?_, hEof⟩
      rw [hError]
      exact Bool.false_ne_true
    | pop depth =>
      simp only [RecoveryContext.isValid, Bool.and_eq_true, decide_eq_true_eq] at hValid
      obtain ⟨hPos, hLe⟩ := hValid
      rw [RecoveryContext.depth] at hLe
      exact ⟨hAttempts, hPos, by omega⟩
  next => trivial

theorem chooseRecovery_eq (hKeeps : env.Keeps Ok) (s : Session σ)
    (la : Lookahead) (attempts : Nat) : ∃ lex stats,
      (s.chooseRecovery env la attempts).2 = { s with lex, stats } ∧ (Ok s.lex.input → Ok lex.input) ∧
        Carries env.language s.stack.structuralStates attempts (s.chooseRecovery env la attempts).1 := by
  rw [chooseRecovery]
  split
  · exact ⟨s.lex, s.stats, rfl, id, trivial⟩
  next hAttempts =>
    obtain ⟨lex, stats, hEq, hOk⟩ := followingFrom_eq hKeeps (env.host.source.size + 2) (la.stop s.position) s
    rw [following]
    generalize followingFrom env (env.host.source.size + 2) (la.stop s.position) s = answer at hEq
    obtain ⟨symbol, s'⟩ := answer
    obtain rfl := hEq
    exact ⟨_, _, rfl, fun hInput => hKeeps.recover _ _ (hOk hInput), carries_validate (by omega) _⟩

theorem acts_recover (hKeeps : env.Keeps Ok) {la : Lookahead}
    (hInterior : la.isInterior = false) (hMissing : la.isMissing = false) :
    Acts env Ok s la none (s.recover env la) := by
  obtain ⟨lex, stats, hEq, hOk, hCarries⟩ := chooseRecovery_eq hKeeps
    { s with recoveries := some (s.position, s.attempts) } la s.attempts
  have hAsks : Asks Ok s { s with lex, stats, recoveries := some (s.position, s.attempts) } := .mk hOk
  rw [recover]
  dsimp only
  generalize chooseRecovery env { s with recoveries := some (s.position, s.attempts) } la s.attempts = answer
    at hEq hCarries
  obtain ⟨recovery, r⟩ := answer
  dsimp only at hEq hCarries ⊢
  rw [← hEq] at hAsks
  cases recovery with
  | insert symbol => exact .insert hInterior hMissing hAsks hCarries.1 hCarries.2
  | pop depth => exact .pop hInterior hMissing hAsks hCarries.1 hCarries.2.1 hCarries.2.2
  | skip =>
    subst hEq
    cases la with
    | missing symbol => cases hMissing
    | reused subtree => exact .skip hInterior rfl hAsks (by simp) (.shared subtree)
    | token t =>
      simp only [skip]
      split
      next hError => exact .skipError (r := { s with lex, stats, recoveries := some (s.position, s.attempts) }) hAsks hError
      split
      next hEof =>
        rw [skipAtEnd]
        dsimp only
        split
        next hAgain =>
          simp only [Bool.and_eq_true, Bool.not_eq_true'] at hAgain
          exact .wrap hAsks hEof hAgain.1
        next => exact .giveUp hAsks hEof
      next hEof =>
        refine .skip rfl rfl hAsks (fun t' ht => ?_) (.token t)
        obtain rfl := Lookahead.token.inj ht
        exact hEof

theorem acts_withoutAction (hKeeps : env.Keeps Ok) {la : Lookahead}
    (hInterior : la.isInterior = false) (hAction : s.actionOn env la = none) :
    Acts env Ok s la none (s.withoutAction env la) := by
  cases la with
  | token t =>
    rw [withoutAction]
    split
    next hExtra =>
      rw [Bool.and_eq_true] at hExtra
      exact .extra hInterior hAction (.token t) hExtra.2
    next => exact acts_recover hKeeps hInterior rfl
  | reused subtree =>
    rw [withoutAction]
    split
    next hExtra => exact .extra hInterior hAction (.shared subtree) hExtra
    next => exact acts_recover hKeeps hInterior rfl
  | missing symbol => exact .dropped

theorem step_eq_act {la : Lookahead} (h : la.isInterior = false) : s.step env la = s.act env la := by
  cases la with
  | reused subtree =>
    have hLeaf : subtree.isLeaf = true := by simpa [Lookahead.isInterior] using h
    rw [step, hLeaf]
    rfl
  | token t => rfl
  | missing symbol => rfl

/-- A step does one of the things that a lookahead can lead to. -/
theorem acts_step (hKeeps : env.Keeps Ok) (s : Session σ)
    (la : Lookahead) :
    Acts env Ok s la (s.reductionOn? env la) (s.step env la) := by
  cases hInterior : la.isInterior with
  | true =>
    cases la with
    | reused subtree =>
      have hLeaf : subtree.isLeaf = false := by simpa [Lookahead.isInterior] using hInterior
      rw [reductionOn?, if_pos hInterior, step, hLeaf]
      exact .interior hLeaf
    | token t => cases hInterior
    | missing symbol => cases hInterior
  | false =>
    rw [step_eq_act hInterior, reductionOn?, hInterior, act]
    cases hAction : s.actionOn env la with
    | none => exact acts_withoutAction hKeeps hInterior hAction
    | some action =>
      cases action with
      | shift next =>
        obtain ⟨leaf, nextId, hLeaf, hLeaves⟩ := leaves_shiftedLeaf env s la
        have hShift : s.shift env next la = { s with stack := s.stack.push next leaf, nextId } := by rw [shift, hLeaf]
        dsimp only
        rw [hShift]
        exact .shift hInterior hAction hLeaves
      | reduce id => exact .reduce hInterior hAction
      | accept => exact .accept hInterior hAction

/-! ## Steps and runs -/

/-- One step, with the production if it is a reduction. -/
inductive Steps (env : SessionEnv σ) (Ok : σ → Prop) (s : Session σ) : Option ProductionId → Progress σ → Prop
  | stopped : Steps env Ok s none (.finished (cancelledRoot env { s with steps := s.steps + 1 }).1 .cancelled
      (cancelledRoot env { s with steps := s.steps + 1 }).2)
  | reduced {id : ProductionId} {t : Session σ} : Takes env { s with steps := s.steps + 1 } none (some id) t →
    Steps env Ok s (some id) (.running t)
  | acted {la : Lookahead} {t : Session σ} {id : Option ProductionId} {p : Progress σ} :
    Takes env { s with steps := s.steps + 1 } (some la) none t → Acts env Ok t la id p → Steps env Ok s id p

theorem steps_next (hKeeps : env.Keeps Ok) (s : Session σ) :
    Steps env Ok s (s.reduction? env) (s.next env) := by
  have hTakes := takes_nextLookahead env { s with steps := s.steps + 1 }
  rw [next, reduction?]
  dsimp only
  split
  · exact .stopped
  · generalize nextLookahead env { s with steps := s.steps + 1 } = answer at hTakes
    obtain ⟨la | la, t⟩ := answer
    · dsimp only at hTakes ⊢
      generalize (reuseHere env { s with steps := s.steps + 1 }).1.reduction? = id at hTakes ⊢
      cases hTakes with
      | reduced hPending hDeferred hReuse hFinds => exact .reduced (.reduced hPending hDeferred hReuse hFinds)
    · exact .acted hTakes (acts_step hKeeps t la)

/-- From one session to another one by steps. -/
def Reaches (env : SessionEnv σ) : Session σ → Session σ → Prop :=
  Relation.ReflTransGen fun s t => s.next env = .running t

theorem reaches_of_run {limit : Nat} {root : Subtree} {status : ParseStatus} {t : Session σ}
    (h : run env limit s = some (root, status, t)) :
    ∃ last, Reaches env s last ∧ last.next env = .finished root status t := by
  induction limit generalizing s with
  | zero => cases h
  | succ limit ih =>
    rw [run] at h
    split at h
    next s' hNext =>
      obtain ⟨last, hReaches, hLast⟩ := ih h
      exact ⟨last, .head hNext hReaches, hLast⟩
    next root' status' t' hNext =>
      simp only [Option.some.injEq, Prod.mk.injEq] at h
      obtain ⟨rfl, rfl, rfl⟩ := h
      exact ⟨s, .refl, hNext⟩

/-- What every step preserves holds of every session of a run. -/
theorem Reaches.invariant {I : Session σ → Prop} (h : Reaches env s t) (hStart : I s)
    (hStep : ∀ s t, I s → s.next env = .running t → I t) : I t := by
  induction h with
  | refl => exact hStart
  | tail _ hNext ih => exact hStep _ _ ih hNext

end Session
end Reparse
