import Reparse.Proofs.Parse.Aligned
import Reparse.Proofs.Parse.Endless
/-!
# Repairs that work

Panic mode tries the table on the states of the stack before it answers. The session then does what the trial did: it
takes the same actions on the same states, so an inserted token is shifted and the lookahead behind it as well, and after
a pop the lookahead is. Only reductions come in between.
-/
namespace Reparse

open Subtree

variable {σ : Type}

/-! ## What panic mode has tried -/

namespace RecoveryContext

variable {c : RecoveryContext}

theorem accepts_eq_true {depth : Nat} {symbols : List Symbol} (h : c.accepts depth symbols = true) :
    depth ≤ c.depth ∧ tryShift c.language.table maxTrialSteps (c.states.drop depth) symbols = true := by
  rw [accepts, Bool.and_eq_true, decide_eq_true_eq] at h
  exact h

theorem validate_eq {proposed : Recovery} (h : c.validate proposed ≠ .skip) : c.validate proposed = proposed := by
  rw [validate] at h ⊢
  split
  · rfl
  next hInvalid => exact absurd (if_neg hInvalid) h

theorem panicMode_insert {m : Symbol} (h : c.panicMode = .insert m) :
    c.isLexicalError = false ∧ m ≠ .eof ∧
      tryShift c.language.table maxTrialSteps c.states [m, c.lookahead] = true := by
  rw [panicMode] at h
  split at h
  · cases h
  next hError =>
  split at h
  · cases h
  split at h
  next found hFound =>
    obtain rfl := Recovery.insert.inj h
    have hFits := List.find?_some hFound
    simp only [fitsAfter, Bool.and_eq_true, bne_iff_ne] at hFits
    obtain ⟨⟨⟨hEof, -⟩, hBoth⟩, -⟩ := hFits
    exact ⟨by simpa using hError, hEof, (accepts_eq_true hBoth).2⟩
  next =>
    dsimp only at h
    split at h
    · cases h
    · cases h

theorem panicMode_pop {depth : Nat} (h : c.panicMode = .pop depth) :
    c.isLexicalError = false ∧ depth ≤ c.depth ∧
      tryShift c.language.table maxTrialSteps (c.states.drop depth) [c.lookahead] = true := by
  rw [panicMode] at h
  split at h
  · cases h
  next hError =>
  split at h
  · cases h
  split at h
  · cases h
  next =>
    dsimp only at h
    split at h
    next found hFound =>
      obtain rfl := Recovery.pop.inj h
      obtain ⟨hDepth, hTry⟩ := accepts_eq_true (List.find?_some (p := fun depth => c.accepts depth [c.lookahead]) hFound)
      exact ⟨by simpa using hError, hDepth, hTry⟩
    · cases h

end RecoveryContext

/-! ## Recoveries -/

/-- A lookahead without an action that the session does not recover from. -/
def Lookahead.isPassed (l : Language) : Lookahead → Bool
  | .token t => !t.isError && l.isExtra t.symbol
  | .reused s => s.isExtra
  | .missing _ => true

namespace Session

variable {env : SessionEnv σ} {g : Grammar} {s t : Session σ} {la : Lookahead} {rest : List Lookahead}

/-- What the next step takes for its lookahead, if it takes one. -/
def lookahead? (env : SessionEnv σ) (s : Session σ) : Option Lookahead :=
  let stops := s.shouldStop env
  let s := { s with steps := s.steps + 1 }
  if stops then none else (s.nextLookahead env).1

/-- How the session recovers from a lookahead, if it has to. -/
def recoveryOn? (env : SessionEnv σ) (s : Session σ) (la : Lookahead) : Option Recovery :=
  if la.isInterior || (s.actionOn env la).isSome || la.isPassed env.language then none
  else some (chooseRecovery env { s with recoveries := some (s.position, s.attempts) } la s.attempts).1

/-- What the next step recovers from and how, if it does. -/
def recovery? (env : SessionEnv σ) (s : Session σ) : Option (Lookahead × Recovery) :=
  let stops := s.shouldStop env
  let s := { s with steps := s.steps + 1 }
  if stops then none
  else
    match s.nextLookahead env with
    | (some la, s) => (s.recoveryOn? env la).map fun recovery => (la, recovery)
    | (none, _) => none

theorem recoveryOn?_eq_none {a : Action} (h : s.actionOn env la = some a) : s.recoveryOn? env la = none := by
  rw [recoveryOn?, h]
  simp

theorem recover_of_recoveryOn? {r : Recovery} (h : s.recoveryOn? env la = some r) :
    la.isInterior = false ∧ s.step env la = s.recover env la ∧
      r = (chooseRecovery env { s with recoveries := some (s.position, s.attempts) } la s.attempts).1 := by
  rw [recoveryOn?] at h
  split at h
  · cases h
  next hNot =>
    simp only [Bool.or_eq_true, not_or, Bool.not_eq_true, Option.isSome_eq_false_iff, Option.isNone_iff_eq_none] at hNot
    obtain ⟨⟨hInterior, hAction⟩, hPassed⟩ := hNot
    refine ⟨hInterior, ?_, (Option.some.inj h).symm⟩
    rw [step_eq_act hInterior, act, hAction]
    cases la with
    | token t =>
      rw [withoutAction, if_neg]
      rw [show (!t.isError && env.language.isExtra t.symbol) = false from hPassed]
      exact Bool.false_ne_true
    | reused x =>
      rw [withoutAction, if_neg]
      rw [show x.isExtra = false from hPassed]
      exact Bool.false_ne_true
    | missing symbol => cases hPassed

/-! ## Lookaheads that wait -/

/-- The lookaheads that wait, the next one first. -/
def held (s : Session σ) : List Lookahead := s.pending.toList ++ s.deferred.toList

/-- The session once the next step took a lookahead that waits. -/
def resumed (s : Session σ) : Session σ :=
  match s.pending with
  | some _ => { s with steps := s.steps + 1, pending := none }
  | none => { s with steps := s.steps + 1, deferred := none }

@[simp] theorem stack_resumed (s : Session σ) : s.resumed.stack = s.stack := by
  rw [resumed]
  split <;> rfl

@[simp] theorem nextId_resumed (s : Session σ) : s.resumed.nextId = s.nextId := by
  rw [resumed]
  split <;> rfl

theorem state_resumed (s : Session σ) : s.resumed.state = s.state := by
  rw [state, stack_resumed, state]

theorem actionOn_resumed (s : Session σ) : s.resumed.actionOn env la = s.actionOn env la := by
  rw [actionOn, actionOn, state_resumed]

theorem held_eq_cons (h : s.held = la :: rest) : (s.pending = some la ∧ s.deferred.toList = rest) ∨
    (s.pending = none ∧ s.deferred = some la ∧ rest = []) := by
  rw [held] at h
  cases hPending : s.pending with
  | some a =>
    rw [hPending, Option.toList_some, List.singleton_append, List.cons.injEq] at h
    obtain ⟨rfl, hRest⟩ := h
    exact .inl ⟨rfl, hRest⟩
  | none =>
    rw [hPending, Option.toList_none, List.nil_append] at h
    cases hDeferred : s.deferred with
    | none =>
      rw [hDeferred] at h
      cases h
    | some a =>
      rw [hDeferred, Option.toList_some, List.cons.injEq] at h
      obtain ⟨rfl, hRest⟩ := h
      exact .inr ⟨rfl, rfl, hRest.symm⟩

theorem resumed_of_held (h : s.held = la :: rest) : s.resumed.pending = none ∧ s.resumed.deferred.toList = rest := by
  rcases held_eq_cons h with ⟨hPending, hRest⟩ | ⟨hPending, -, rfl⟩
  · rw [resumed, hPending]
    exact ⟨rfl, hRest⟩
  · rw [resumed, hPending]
    exact ⟨rfl, rfl⟩

theorem nextLookahead_of_held (h : s.held = la :: rest) :
    nextLookahead env { s with steps := s.steps + 1 } = (some la, s.resumed) := by
  rcases held_eq_cons h with ⟨hPending, -⟩ | ⟨hPending, hDeferred, -⟩
  · rw [nextLookahead, resumed, hPending]
  · rw [nextLookahead, resumed, hPending, hDeferred]

/-- Unless the session is stopped, the next step is about the first lookahead that waits. -/
theorem next_of_held (h : s.held = la :: rest) (hStop : s.shouldStop env = false) :
    s.lookahead? env = some la ∧ s.next env = s.resumed.step env la ∧ s.reduction? env = s.resumed.reductionOn? env la ∧
      s.recovery? env = (s.resumed.recoveryOn? env la).map fun recovery => (la, recovery) := by
  rw [lookahead?, next, reduction?, recovery?, hStop]
  dsimp only
  rw [nextLookahead_of_held h]
  exact ⟨rfl, rfl, rfl, rfl⟩

/-! ## Steps that a trial foresees -/

/-- From one session to another one by reductions, and without a recovery. -/
def Glides (env : SessionEnv σ) : Session σ → Session σ → Prop :=
  Relation.ReflTransGen fun s t => s.next env = .running t ∧ (s.reduction? env).isSome = true ∧ s.recovery? env = none

/-- The next step shifts the lookahead: the leaf that stands for it is pushed. -/
structure Shifts (env : SessionEnv σ) (s : Session σ) (la : Lookahead) (t : Session σ) : Prop where
  next : s.next env = .running t
  lookahead : s.lookahead? env = some la
  pushed : ∃ q leaf, env.language.table.action s.state la.symbol = some (.shift q) ∧ Leaves env s la leaf t.nextId ∧
    t.stack = s.stack.push q leaf

/-- The next step accepts on the lookahead. -/
structure Accepts (env : SessionEnv σ) (s : Session σ) (la : Lookahead) : Prop where
  finished : ∃ root t, s.next env = .finished root .complete t
  lookahead : s.lookahead? env = some la
  action : env.language.table.action s.state la.symbol = some .accept

/-- The session shifts the lookahead or accepts on it, with nothing but reductions before. -/
def Settles (env : SessionEnv σ) (s : Session σ) (la : Lookahead) : Prop :=
  ∃ u, Glides env s u ∧ ((∃ v, Shifts env u la v) ∨ Accepts env u la)

/-- These lookaheads wait, and the session is never stopped. -/
structure Faces (env : SessionEnv σ) (s : Session σ) (las : List Lookahead) : Prop where
  tidy : s.Tidy env
  held : s.held = las
  unstopped : ∀ t, Reaches env s t → t.shouldStop env = false

theorem Tidy.keeps_held (h : s.Tidy env) (hHeld : s.held = la :: rest) : la.Keeps (Marked env.language.table) := by
  rcases held_eq_cons hHeld with ⟨hPending, -⟩ | ⟨-, hDeferred, -⟩
  · exact h.nodes.pending la hPending
  · exact h.nodes.deferred la hDeferred

theorem Leaves.congr {leaf : Subtree} {nextId : NodeId} (h : Leaves env s la leaf nextId) (hId : s.nextId = t.nextId)
    (hState : s.state = t.state) : Leaves env t la leaf nextId := by
  cases h with
  | stands h =>
    cases h with
    | token => rw [hId, hState]; exact .stands (.token _)
    | missing => rw [hId, hState]; exact .stands (.missing _)
    | shared => rw [hId]; exact .stands (.shared _)
  | restated => rw [hId, hState]; exact .restated _

section Acting

variable (hInterior : la.isInterior = false) (hError : la.isLexicalError = false)
include hInterior hError

theorem Faces.acts (h : Faces env s (la :: rest)) {a : Action}
    (hAction : env.language.table.action s.state la.symbol = some a) :
    s.lookahead? env = some la ∧ s.next env = s.resumed.act env la ∧ s.resumed.actionOn env la = some a ∧
      s.reduction? env = a.reduction? ∧ s.recovery? env = none := by
  obtain ⟨hLookahead, hNext, hReduction, hRecovery⟩ := next_of_held h.held (h.unstopped s .refl)
  have hOn : s.resumed.actionOn env la = some a := by
    rw [actionOn_resumed, actionOn, hError, if_neg Bool.false_ne_true, hAction]
  refine ⟨hLookahead, ?_, hOn, ?_, ?_⟩
  · rw [hNext, step_eq_act hInterior]
  · rw [hReduction, reductionOn?, hInterior, if_neg Bool.false_ne_true, hOn]
    rfl
  · rw [hRecovery, recoveryOn?_eq_none hOn, Option.map_none]

theorem Faces.accept (h : Faces env s (la :: rest)) (hAction : env.language.table.action s.state la.symbol = some .accept) :
    Accepts env s la := by
  obtain ⟨hLookahead, hNext, hOn, -, -⟩ := h.acts hInterior hError hAction
  rw [act, hOn] at hNext
  exact ⟨⟨_, _, hNext⟩, hLookahead, hAction⟩

end Acting

section Built

variable (hBuilt : env.language.BuiltFrom g) (hApart : g.ExtrasApart)
include hBuilt hApart

theorem Faces.next {las left : List Lookahead} (h : Faces env s las) (hNext : s.next env = .running t)
    (hHeld : t.held = left) : Faces env t left :=
  ⟨h.tidy.next hBuilt hApart hNext, hHeld, fun u hReaches => h.unstopped u (.head hNext hReaches)⟩

variable (hInterior : la.isInterior = false) (hError : la.isLexicalError = false)
include hInterior hError

/-- After a reduction the lookahead still waits, over the states that a trial goes on with. -/
theorem Faces.reduce (h : Faces env s (la :: rest)) {id : ProductionId}
    (hAction : env.language.table.action s.state la.symbol = some (.reduce id)) : ∃ t,
      (s.next env = .running t ∧ (s.reduction? env).isSome = true ∧ s.recovery? env = none) ∧
      Faces env t (la :: rest) ∧ ∀ next,
        env.language.table.goto ((RecoveryContext.popStates s.stack.structuralStates
          (env.language.table.production id).childCount.toNat).headD 0) (env.language.table.production id).lhs = some next →
        t.stack.structuralStates = next :: RecoveryContext.popStates s.stack.structuralStates
          (env.language.table.production id).childCount.toNat := by
  obtain ⟨-, hNext, hOn, hReduction, hRecovery⟩ := h.acts hInterior hError hAction
  obtain ⟨-, hRest⟩ := resumed_of_held h.held
  rw [act, hOn] at hNext
  dsimp only at hNext
  refine ⟨_, ⟨hNext, by rw [hReduction]; rfl, hRecovery⟩, h.next hBuilt hApart hNext ?_, fun next hGoto => ?_⟩
  · rw [Session.held, ← hRest]
    rfl
  · have hAligned : s.resumed.stack.Aligned := by
      rw [stack_resumed]
      exact h.tidy.aligned
    rw [← stack_resumed s] at hGoto ⊢
    exact structuralStates_reduce hAligned id _ hGoto

/-- After a shift the lookahead is gone, and the state that the shift leads to is over those before. -/
theorem Faces.shift (h : Faces env s (la :: rest)) {q : StateId}
    (hAction : env.language.table.action s.state la.symbol = some (.shift q)) : ∃ t, Shifts env s la t ∧
      Faces env t rest ∧ t.stack.structuralStates = q :: s.stack.structuralStates := by
  obtain ⟨hLookahead, hNext, hOn, -, -⟩ := h.acts hInterior hError hAction
  obtain ⟨hPending, hRest⟩ := resumed_of_held h.held
  obtain ⟨leaf, nextId, hLeaf, hLeaves⟩ := leaves_shiftedLeaf env s.resumed la
  rw [act, hOn] at hNext
  dsimp only at hNext
  rw [Session.shift, hLeaf] at hNext
  dsimp only at hNext
  have hHere : Leaves env s la leaf nextId := hLeaves.congr (nextId_resumed s) (state_resumed s)
  have hMarked : leaf.All (Marked env.language.table) :=
    hHere.keeps (lasting_marked env.language) (h.tidy.keeps_held h.held)
  have hStructural : leaf.isExtra = false :=
    hBuilt.not_isExtra_of_leads hApart hMarked.here (.inl (by rw [hHere.symbol_eq]; exact hAction))
  refine ⟨_, ⟨hNext, hLookahead, q, leaf, hAction, hHere, ?_⟩, h.next hBuilt hApart hNext ?_, ?_⟩
  · exact congrArg (fun stack => ParseStack.push stack q leaf) (stack_resumed s)
  · rw [Session.held, hPending, Option.toList_none, List.nil_append]
    exact hRest
  · exact (ParseStack.structuralStates_push _ q hStructural).trans (by rw [stack_resumed])

/-- The session does what a trial did: it comes to shift the first symbol and is then where the trial went on, or it
accepts. -/
theorem Faces.follows_trial (h : Faces env s (la :: rest)) {steps : Nat} {symbols : List Symbol}
    (hTry : RecoveryContext.tryShift env.language.table steps s.stack.structuralStates (la.symbol :: symbols) = true) :
    ∃ u, Glides env s u ∧ ((∃ v, Shifts env u la v ∧ Faces env v rest ∧ ∃ left,
      RecoveryContext.tryShift env.language.table left v.stack.structuralStates symbols = true) ∨ Accepts env u la) := by
  -- On the steps of the trial. Its first state is that of the session because the stack is aligned.
  induction steps generalizing s with
  | zero =>
    rw [RecoveryContext.tryShift] at hTry
    · cases hTry
    · simp
  | succ steps ih =>
    obtain ⟨below, hHead⟩ := h.tidy.aligned.structuralStates
    have hState : s.stack.structuralStates.headD 0 = s.state := by
      rw [hHead]
      rfl
    rw [RecoveryContext.tryShift, hState] at hTry
    cases hAction : env.language.table.action s.state la.symbol with
    | none =>
      rw [hAction] at hTry
      cases hTry
    | some action =>
      rw [hAction] at hTry
      dsimp only at hTry
      cases action with
      | shift q =>
        obtain ⟨v, hShifts, hFaces, hStates⟩ := h.shift hBuilt hApart hInterior hError hAction
        exact ⟨s, .refl, .inl ⟨v, hShifts, hFaces, steps, by rw [hStates]; exact hTry⟩⟩
      | accept => exact ⟨s, .refl, .inr (h.accept hInterior hError hAction)⟩
      | reduce id =>
        obtain ⟨t, hNext, hFaces, hStates⟩ := h.reduce hBuilt hApart hInterior hError hAction
        dsimp only at hTry
        split at hTry
        next next hGoto =>
          rw [← hStates next hGoto] at hTry
          obtain ⟨u, hGlides, hEnds⟩ := ih hFaces hTry
          exact ⟨u, .head hNext hGlides, hEnds⟩
        next => cases hTry

end Built

/-! ## Repairs -/

theorem next_of_recovery? {r : Recovery} (h : s.recovery? env = some (la, r)) : ∃ t : Session σ, t.stack = s.stack ∧
    s.next env = t.recover env la ∧ la.isInterior = false ∧
      r = (chooseRecovery env { t with recoveries := some (t.position, t.attempts) } la t.attempts).1 := by
  have hTakes := takes_nextLookahead env { s with steps := s.steps + 1 }
  rw [recovery?] at h
  rw [next]
  dsimp only at h ⊢
  split at h
  · cases h
  next hStop =>
    rw [if_neg hStop]
    generalize nextLookahead env { s with steps := s.steps + 1 } = answer at h hTakes ⊢
    obtain ⟨_ | la', t⟩ := answer
    · cases h
    · obtain ⟨r', hOn, hEq⟩ := Option.map_eq_some_iff.mp h
      obtain ⟨rfl, rfl⟩ := Prod.mk.inj hEq
      obtain ⟨hInterior, hStep, hChosen⟩ := recover_of_recoveryOn? hOn
      exact ⟨t, hTakes.stack_eq, hStep, hInterior, hChosen⟩

/-- What a recovery does once it is chosen. -/
def carryOut (env : SessionEnv σ) (s : Session σ) (la : Lookahead) : Recovery → Progress σ
  | .skip => s.skip env la
  | .insert symbol => .running { s with deferred := some la, pending := some (.missing symbol) }
  | .pop depth => .running { s.popStack env depth with pending := some la }

theorem recover_eq (s : Session σ) (la : Lookahead) : s.recover env la =
    (chooseRecovery env { s with recoveries := some (s.position, s.attempts) } la s.attempts).2.carryOut env la
      (chooseRecovery env { s with recoveries := some (s.position, s.attempts) } la s.attempts).1 := rfl

structure Describes (env : SessionEnv σ) (s : Session σ) (la : Lookahead) (c : RecoveryContext) : Prop where
  language : c.language = env.language
  states : c.states = s.stack.structuralStates
  lookahead : c.lookahead = la.symbol
  lexical : c.isLexicalError = la.isLexicalError

section Repairs

variable (hPanic : ∀ c input, (env.host.recover c input).1 = c.panicMode)
include hPanic

/-- A recovery that is no skip is what panic mode answered. -/
theorem panicMode_of_chooseRecovery {attempts : Nat} {r : Recovery} (h : (s.chooseRecovery env la attempts).1 = r)
    (hSkip : r ≠ .skip) : ∃ c, Describes env s la c ∧ c.panicMode = r := by
  subst h
  rw [chooseRecovery] at hSkip ⊢
  split at hSkip
  · exact absurd rfl hSkip
  next hAttempts =>
    rw [if_neg hAttempts]
    -- The context is about the stack as it is: reading ahead changes the lexer only.
    obtain ⟨lex, stats, hEq, -⟩ :=
      followingFrom_eq env.keeps_true (env.host.source.size + 2) (la.stop s.position) s
    rw [following] at hSkip ⊢
    generalize followingFrom env (env.host.source.size + 2) (la.stop s.position) s = answer at hEq hSkip
    obtain ⟨symbol, s'⟩ := answer
    obtain rfl := hEq
    dsimp only at hSkip ⊢
    exact ⟨_, ⟨rfl, rfl, rfl, rfl⟩, ((RecoveryContext.validate_eq hSkip).trans (hPanic _ _)).symm⟩

theorem panicMode_of_recovery? {r : Recovery} (h : s.recovery? env = some (la, r)) (hSkip : r ≠ .skip) :
    la.isInterior = false ∧ ∃ (t : Session σ) (c : RecoveryContext), t.stack = s.stack ∧ Describes env t la c ∧
      c.panicMode = r ∧ s.next env = t.carryOut env la r := by
  obtain ⟨t, hStack, hNext, hInterior, hChosen⟩ := next_of_recovery? h
  obtain ⟨c, hDescribes, hMode⟩ := panicMode_of_chooseRecovery hPanic hChosen.symm hSkip
  obtain ⟨lex, stats, hEq, -⟩ := chooseRecovery_eq env.keeps_true
    { t with recoveries := some (t.position, t.attempts) } la t.attempts
  refine ⟨hInterior, { t with lex, stats, recoveries := some (t.position, t.attempts) }, c, hStack,
    ⟨hDescribes.language, hDescribes.states, hDescribes.lookahead, hDescribes.lexical⟩, hMode, ?_⟩
  rw [hNext, recover_eq, hEq, ← hChosen]

variable (hBuilt : env.language.BuiltFrom g) (hApart : g.ExtrasApart)
include hBuilt hApart

/-- An inserted token is shifted, and so is the lookahead behind it. -/
theorem Faces.inserts {las : List Lookahead} (h : Faces env s las) {m : Symbol}
    (hRecovery : s.recovery? env = some (la, .insert m)) : ∃ t u v, s.next env = .running t ∧ Glides env t u ∧
      Shifts env u (.missing m) v ∧ Settles env v la := by
  obtain ⟨hInterior, t, c, -, hDescribes, hMode, hNext⟩ := panicMode_of_recovery? hPanic hRecovery (by simp)
  obtain ⟨hLexical, hEof, hTry⟩ := RecoveryContext.panicMode_insert hMode
  have hError : la.isLexicalError = false := hDescribes.lexical.symm.trans hLexical
  rw [hDescribes.language, hDescribes.states, hDescribes.lookahead] at hTry
  -- The trial goes through both, with the lookahead deferred behind the token.
  obtain ⟨u, hGlides, ⟨v, hShifts, hBehind, left, hTry'⟩ | hAccepts⟩ :=
    (h.next hBuilt hApart hNext rfl).follows_trial hBuilt hApart rfl rfl hTry
  · obtain ⟨w, hGlides', hEnds⟩ := hBehind.follows_trial hBuilt hApart hInterior hError hTry'
    refine ⟨_, u, v, hNext, hGlides, hShifts, w, hGlides', hEnds.imp_left ?_⟩
    rintro ⟨x, hShifts', -⟩
    exact ⟨x, hShifts'⟩
  · exact absurd (hBuilt.eof_of_accept hAccepts.action) hEof

/-- After a pop the lookahead is shifted. -/
theorem Faces.pops {las : List Lookahead} (h : Faces env s las) {depth : Nat}
    (hRecovery : s.recovery? env = some (la, .pop depth)) : ∃ t, s.next env = .running t ∧ Settles env t la := by
  obtain ⟨hInterior, t, c, -, hDescribes, hMode, hNext⟩ := panicMode_of_recovery? hPanic hRecovery (by simp)
  obtain ⟨hLexical, hDepth, hTry⟩ := RecoveryContext.panicMode_pop hMode
  have hError : la.isLexicalError = false := hDescribes.lexical.symm.trans hLexical
  have hPopped : (t.popStack env depth).stack.structuralStates = c.states.drop depth := by
    obtain ⟨top, below, -, hSplit, hPop⟩ := popStack_eq env t depth
    have hBelow := ParseStack.structuralStates_splitStructural depth t.stack
    rw [RecoveryContext.depth] at hDepth
    rw [hSplit, ← hDescribes.states, RecoveryContext.popStates, Nat.min_eq_left hDepth] at hBelow
    rw [hPop]
    exact (ParseStack.structuralStates_pushExtra below rfl).trans hBelow
  rw [hDescribes.language, hDescribes.lookahead, ← hPopped] at hTry
  obtain ⟨u, hGlides, hEnds⟩ :=
    (h.next hBuilt hApart hNext rfl).follows_trial hBuilt hApart hInterior hError hTry
  refine ⟨_, hNext, u, hGlides, hEnds.imp_left ?_⟩
  rintro ⟨v, hShifts, -⟩
  exact ⟨v, hShifts⟩

end Repairs
end Session

/-- The repairs of panic mode work, in every session that a parse comes to unless it is stopped. A token that is inserted
is shifted as a missing leaf; the lookahead behind it, or the one after a pop, is then shifted or accepted on. Between
them come reductions only, and no recovery. -/
theorem repairs_settle {env : SessionEnv σ} {g : Grammar} (hBuilt : env.language.BuiltFrom g) (hApart : g.ExtrasApart)
    (hPanic : ∀ c input, (env.host.recover c input).1 = c.panicMode) {marks : LexMarks} {input : σ} {old : Option Tree}
    (hOld : ∀ tree ∈ old, g.Grows tree)
    (hUnstopped : ∀ t, Session.Reaches env (.start marks input old env.firstId) t → t.shouldStop env = false)
    {s : Session σ} (hReaches : Session.Reaches env (.start marks input old env.firstId) s) {la : Lookahead} :
    (∀ m, s.recovery? env = some (la, .insert m) → ∃ t u v, s.next env = .running t ∧ Session.Glides env t u ∧
      Session.Shifts env u (.missing m) v ∧ Session.Settles env v la) ∧
    ∀ depth, s.recovery? env = some (la, .pop depth) → ∃ t, s.next env = .running t ∧ Session.Settles env t la := by
  have hTidy : s.Tidy env :=
    (Session.tidy_start fun tree hTree => (hOld tree hTree).marked hBuilt).reaches hBuilt hApart hReaches
  have hFaces : Session.Faces env s s.held := ⟨hTidy, rfl, fun t ht => hUnstopped t (hReaches.trans ht)⟩
  exact ⟨fun m => hFaces.inserts hPanic hBuilt hApart, fun depth => hFaces.pops hPanic hBuilt hApart⟩

/-- Either `a b c` or `d`, with blanks around them. -/
def Grammar.either : Grammar where
  name := "either"
  tokens := [("blank", .chars ⟨#[(' ', ' ')], false⟩)]
  extras := ["blank"]
  rules := [⟨"s", [.literal "a", .literal "b", .literal "c"], 0, .none⟩, ⟨"s", [.literal "d"], 0, .none⟩]

/-- The table of `Grammar.either`. -/
def Table.either : Table where
  name := "either"
  symbols := #[.endOfInput, ⟨"blank", true, true, true, false⟩, ⟨"a", true, false, false, false⟩,
    ⟨"b", true, false, false, false⟩, ⟨"c", true, false, false, false⟩, ⟨"d", true, false, false, false⟩,
    ⟨"s", true, true, false, false⟩]
  tokenCount := 6
  fields := #[]
  productions := #[⟨⟨6⟩, 3, []⟩, ⟨⟨6⟩, 1, []⟩]
  stateCount := 6
  actions := #[none, none, some (.shift 1), none, none, some (.shift 2), none, none, none, some (.shift 4), none, none,
    some (.reduce 1), none, none, none, none, none, some .accept, none, none, none, none, none, none, none, none, none,
    some (.shift 5), none, some (.reduce 0), none, none, none, none, none]
  gotos := #[some 3, none, none, none, none, none]
  lexNodes := #[.accept ⟨1⟩, .chars ⟨#[(' ', ' ')], false⟩ 0, .accept ⟨2⟩, .chars ⟨#[('a', 'a')], false⟩ 2,
    .accept ⟨3⟩, .chars ⟨#[('b', 'b')], false⟩ 4, .accept ⟨4⟩, .chars ⟨#[('c', 'c')], false⟩ 6, .accept ⟨5⟩,
    .chars ⟨#[('d', 'd')], false⟩ 8]
  tokenLex := #[.none, ⟨some 1, false, false⟩, ⟨some 3, true, false⟩, ⟨some 5, true, false⟩, ⟨some 7, true, false⟩,
    ⟨some 9, true, false⟩]
  extras := [⟨1⟩]
  externals := []
  start := ⟨6⟩
  word := none

def Language.either : Language where
  handle := 0
  table := .either
  version := Blob.formatVersion
  modes := #[⟨[⟨1⟩, ⟨2⟩, ⟨5⟩], []⟩, ⟨[⟨1⟩, ⟨3⟩], []⟩, ⟨[⟨1⟩], []⟩, ⟨[⟨1⟩, ⟨4⟩], []⟩]
  stateModes := #[0, 1, 2, 2, 3, 2]
  errorMode := ⟨[⟨1⟩, ⟨2⟩, ⟨3⟩, ⟨4⟩, ⟨5⟩], []⟩
  keywords := []
  scanner := none

theorem Language.either_builtFrom : Language.either.BuiltFrom .either := ⟨by cbv, by cbv, by cbv, by cbv⟩

/-- What surrounds a parse of the text by `Grammar.either`. -/
def SessionEnv.either (text : String) : SessionEnv Unit := ⟨.either, Parser.plainHost text.toUTF8, {}, 0⟩

namespace Session

/-- The session before the third token of a text, which is blank after the first one. -/
def thirdOf (text : String) : Session Unit :=
  follow (.either text) (follow (.either text) (start Language.either.lexMarks () none 0))

theorem reaches_follow {env : SessionEnv σ} (s : Session σ) : Reaches env s (s.follow env) := by
  rw [follow]
  split
  next hNext => exact .single hNext
  next => exact .refl

end Session

/-- Before a `c` the missing `b` is inserted, and before a `d` the `a` is given up. -/
theorem either_repairs :
    (∃ la t u v, (Session.thirdOf "a c").recovery? (.either "a c") = some (la, .insert ⟨3⟩) ∧
      (Session.thirdOf "a c").next (.either "a c") = .running t ∧ Session.Glides (.either "a c") t u ∧
      Session.Shifts (.either "a c") u (.missing ⟨3⟩) v ∧ Session.Settles (.either "a c") v la) ∧
    ∃ la t, (Session.thirdOf "a d").recovery? (.either "a d") = some (la, .pop 1) ∧
      (Session.thirdOf "a d").next (.either "a d") = .running t ∧ Session.Settles (.either "a d") t la := by
  have hRepairs (text : String) (la : Lookahead) := @repairs_settle Unit (.either text) .either Language.either_builtFrom
    (by decide) (fun _ _ => rfl) Language.either.lexMarks () none (fun _ hTree => absurd hTree (Option.not_mem_none _))
    (fun _ _ => rfl) (Session.thirdOf text) ((Session.reaches_follow _).trans (Session.reaches_follow _)) la
  have hInserts : ((Session.thirdOf "a c").recovery? (.either "a c")).map Prod.snd = some (.insert ⟨3⟩) := by
    decide +kernel
  have hPops : ((Session.thirdOf "a d").recovery? (.either "a d")).map Prod.snd = some (.pop 1) := by
    decide +kernel
  obtain ⟨⟨la, _⟩, hFirst, rfl⟩ := Option.map_eq_some_iff.mp hInserts
  obtain ⟨⟨lb, _⟩, hSecond, rfl⟩ := Option.map_eq_some_iff.mp hPops
  obtain ⟨t, u, v, hAfter⟩ := (hRepairs "a c" la).1 _ hFirst
  obtain ⟨w, hLater⟩ := (hRepairs "a d" lb).2 _ hSecond
  exact ⟨⟨la, t, u, v, hFirst, hAfter⟩, lb, w, hSecond, hLater⟩

end Reparse
