import Reparse.Proofs.Lex.Unmatched
import Reparse.Proofs.Parse.Progress
/-!
# Runs that do not end

On a text below 2^32 bytes a run without an end reduces from some step on, and always on one lookahead. There is no such run
unless the table has an endless chain of reductions. A token of 2^32 bytes seems to have no size, so that input can be lost.
-/
namespace Reparse

open Subtree

variable {σ : Type}

/-- The stack after a reduction, `node` being the one that it makes. -/
def ParseStack.reduced (t : Table) (s : ParseStack) (id : ProductionId) (node : Subtree) : ParseStack :=
  let below := (s.popExtras.2.popStructural (t.production id).childCount.toNat).2
  (below.push ((t.goto below.state (t.production id).lhs).getD below.state) node).pushExtras s.popExtras.1

/-- The table reduces on a symbol, from one stack to another one. -/
inductive Table.Reduces (t : Table) (a : Symbol) (s : ParseStack) : ParseStack → Prop
  | mk {id : ProductionId} {node : Subtree} : t.action s.state a = some (.reduce id) →
    node.symbol = (t.production id).lhs → node.isExtra = false → Reduces t a s (s.reduced t id node)

namespace Session

/-- A step that reduces, before a lookahead that waits from then on or before a candidate of the old tree. -/
inductive ReducesTo (l : Language) (s t : Session σ) : Prop
  | before {la : Lookahead} : (∀ a, s.pending = some a → a = la) → t.pending = some la →
    l.table.Reduces la.symbol s.stack t.stack → ReducesTo l s t
  | candidate {c c' : ReuseCursor} {candidate : Subtree} {start : Nat} : s.pending = none → t.pending = none →
    s.reuse = some c → t.reuse = some c' → c.Moves c' → c'.current? = some (candidate, start) →
    l.table.Reduces candidate.info.firstSymbol s.stack t.stack → ReducesTo l s t

variable {env : SessionEnv σ} {Ok : σ → Prop} {bytes : List UInt8} {room : Nat} {s t : Session σ} {la : Lookahead}
  {g : Grammar}

theorem reduces_reduce (env : SessionEnv σ) (s : Session σ) {a : Symbol} {id : ProductionId} (extent : Nat)
    (hAction : env.language.table.action s.state a = some (.reduce id)) :
    env.language.table.Reduces a s.stack (s.reduce env id extent).stack :=
  .mk hAction rfl rfl

theorem reducesTo_of_steps {id : ProductionId} (h : Steps env Ok s (some id) (.running t)) :
    ReducesTo env.language s t := by
  cases h with
  | reduced hTakes =>
    cases hTakes with
    | reduced hPending hDeferred hReuse hFinds =>
      cases hFinds with
      | reduce hMoves hCurrent hAction =>
        exact .candidate hPending hPending hReuse rfl hMoves hCurrent (reduces_reduce env _ _ hAction)
  | @acted la r _ _ hTakes hActs =>
    have hStack : r.stack = s.stack := by cases hTakes <;> rfl
    cases hActs with
    | reduce hInterior hAction =>
      obtain ⟨_, hReduce⟩ := actionOn_eq_some hAction
      refine .before (fun a ha => ?_) rfl (hStack ▸ reduces_reduce env r _ hReduce)
      cases hTakes with
      | pending hPending => exact Option.some.inj (ha.symm.trans hPending)
      | deferred hPending => exact absurd (hPending.symm.trans ha) (Option.some_ne_none a).symm
      | reused hPending => exact absurd (hPending.symm.trans ha) (Option.some_ne_none a).symm
      | lexed hPending => exact absurd (hPending.symm.trans ha) (Option.some_ne_none a).symm

/-! ## Chains of reductions -/

section Chains

variable {l : Language} {f : Nat → Session σ} (h : ∀ i, ReducesTo l (f i) (f (i + 1)))
include h

/-- Once a lookahead waits, all reductions are on it. -/
theorem chain_of_pending {i : Nat} (hPending : (f i).pending = some la) :
    ∀ j, (f (i + j)).pending = some la ∧ l.table.Reduces la.symbol (f (i + j)).stack (f (i + j + 1)).stack := by
  have hStep (j : Nat) (hj : (f (i + j)).pending = some la) : (f (i + j + 1)).pending = some la ∧
      l.table.Reduces la.symbol (f (i + j)).stack (f (i + j + 1)).stack := by
    cases h (i + j) with
    | before hSame hAfter hReduces =>
      obtain rfl := hSame la hj
      exact ⟨hAfter, hReduces⟩
    | candidate hNone => exact absurd (hNone.symm.trans hj) (Option.some_ne_none la).symm
  intro j
  induction j with
  | zero => exact ⟨hPending, (hStep 0 hPending).2⟩
  | succ j ih =>
    have hAfter := (hStep j ih.1).1
    exact ⟨hAfter, (hStep (j + 1) hAfter).2⟩

/-- As long as nothing waits, the cursor comes to rest before a candidate, whose first token all reductions are on. -/
theorem chain_of_reuse (hPending : ∀ i, (f i).pending = none) :
    ∃ i a, ∀ j, l.table.Reduces a (f (i + j)).stack (f (i + j + 1)).stack := by
  have hStep (i : Nat) : ∃ c c' candidate start, (f i).reuse = some c ∧ (f (i + 1)).reuse = some c' ∧ c.Moves c' ∧
      c'.current? = some (candidate, start) ∧
      l.table.Reduces candidate.info.firstSymbol (f i).stack (f (i + 1)).stack := by
    cases h i with
    | @before la _ hAfter => exact absurd ((hPending (i + 1)).symm.trans hAfter) (Option.some_ne_none la).symm
    | candidate _ _ hReuse hAfter hMoves hCurrent hReduces => exact ⟨_, _, _, _, hReuse, hAfter, hMoves, hCurrent, hReduces⟩
  let ahead (i : Nat) : Nat := ((f i).reuse.map fun c => ReuseCursor.countAhead c.frames).getD 0
  have hMoves (i : Nat) : (f (i + 1)).reuse = (f i).reuse ∨ ahead (i + 1) < ahead i := by
    obtain ⟨c, c', _, _, hReuse, hAfter, hMoves, _, _⟩ := hStep i
    rcases hMoves.eq_or_countAhead_lt with rfl | hLt
    · exact .inl (hAfter.trans hReuse.symm)
    · refine .inr ?_
      simp only [ahead, hReuse, hAfter, Option.map_some, Option.getD_some]
      exact hLt
  have hAntitone : Antitone ahead := by
    apply antitone_nat_of_succ_le
    intro i
    rcases hMoves i with hSame | hLt
    · simp only [ahead, hSame, le_refl]
    · exact Nat.le_of_lt hLt
  obtain ⟨n, hRest⟩ := WellFoundedLT.antitone_chain_condition hAntitone
  have hSame (j : Nat) : (f (n + j)).reuse = (f n).reuse := by
    induction j with
    | zero => rfl
    | succ j ih =>
      rcases hMoves (n + j) with hSame | hLt
      · exact hSame.trans ih
      · have := hRest (n + j) (Nat.le_add_right _ _)
        have := hRest (n + j + 1) (by omega)
        omega
  obtain ⟨c, c', candidate, start, hReuse, hAfter, _, hCurrent, _⟩ := hStep n
  obtain rfl : c = c' := Option.some.inj (hReuse.symm.trans ((hSame 1).symm.trans hAfter))
  refine ⟨n, candidate.info.firstSymbol, fun j => ?_⟩
  obtain ⟨d, d', other, start', hReuse', hAfter', _, hCurrent', hReduces⟩ := hStep (n + j)
  obtain rfl : c = d' := Option.some.inj (hReuse.symm.trans ((hSame (j + 1)).symm.trans hAfter'))
  obtain ⟨rfl, _⟩ := Prod.mk.inj (Option.some.inj (hCurrent.symm.trans hCurrent'))
  exact hReduces

theorem chain_of_reducesTo : ∃ i a, ∀ j, l.table.Reduces a (f (i + j)).stack (f (i + j + 1)).stack := by
  by_cases hPending : ∃ i la, (f i).pending = some la
  · obtain ⟨i, la, hPending⟩ := hPending
    exact ⟨i, la.symbol, fun j => (chain_of_pending h hPending j).2⟩
  · push Not at hPending
    exact chain_of_reuse h fun i => Option.eq_none_iff_forall_ne_some.mpr (hPending i)

end Chains

/-! ## Endless runs -/

/-- The session after the next step, if there is one. -/
def follow (env : SessionEnv σ) (s : Session σ) : Session σ :=
  match s.next env with
  | .running t => t
  | .finished .. => s

theorem next_follow (h : ∀ limit, run env limit s = none) :
    s.next env = .running (s.follow env) ∧ ∀ limit, run env limit (s.follow env) = none := by
  have hStep (limit : Nat) := h (limit + 1)
  simp only [run] at hStep
  rw [follow]
  cases hNext : s.next env with
  | running t =>
    simp only [hNext] at hStep
    exact ⟨rfl, hStep⟩
  | finished =>
    have hNone := hStep 0
    rw [hNext] at hNone
    cases hNone

section Runs

variable (hServes : env.host.Serves Ok bytes) (hBuilt : env.language.BuiltFrom g) (hNone : env.language.scanner = none)
  (hShort : bytes.length < 2 ^ 32)
include hServes hBuilt hNone hShort

/-- From some step on an endless run does nothing but reduce. -/
theorem Covers.reduces_of_endless (h : Covers env Ok bytes room s) (hPaced : s.Paced)
    (hEndless : ∀ limit, Session.run env limit s = none) : ∃ f : Nat → Session σ, ∀ i, Reaches env s (f i) ∧
      ReducesTo env.language (f i) (f (i + 1)) := by
  let f (i : Nat) : Session σ := (follow env)^[i] s
  have hSucc (i : Nat) : f (i + 1) = (f i).follow env := Function.iterate_succ_apply' _ _ _
  have hAll (i : Nat) : (∀ limit, Session.run env limit (f i) = none) ∧ Reaches env s (f i) ∧
      Covers env Ok bytes room (f i) ∧ (f i).Paced := by
    induction i with
    | zero => exact ⟨hEndless, .refl, h, hPaced⟩
    | succ i ih =>
      obtain ⟨hRun, hReaches, hCovers, hPaced⟩ := ih
      obtain ⟨hNext, hRun'⟩ := next_follow hRun
      have hPays := hCovers.pays hServes hBuilt hNone hShort hPaced
      have hAfter := hCovers.next hServes hBuilt
      rw [hNext] at hPays hAfter
      rw [hSucc]
      exact ⟨hRun', hReaches.tail hNext, hAfter, hPays.1⟩
  have hPays (i : Nat) : (f (i + 1)).stepsLeft (max bytes.length room) +
      (if ((f i).reduction? env).isSome then 0 else 1) ≤ (f i).stepsLeft (max bytes.length room) := by
    obtain ⟨hRun, _, hCovers, hPaced⟩ := hAll i
    have hPays := hCovers.pays hServes hBuilt hNone hShort hPaced
    rw [(next_follow hRun).1] at hPays
    rw [hSucc]
    exact hPays.2
  have hAntitone : Antitone fun i => (f i).stepsLeft (max bytes.length room) :=
    antitone_nat_of_succ_le fun i => Nat.le_trans (Nat.le_add_right _ _) (hPays i)
  obtain ⟨n, hRest⟩ := WellFoundedLT.antitone_chain_condition hAntitone
  refine ⟨fun i => f (n + i), fun i => ⟨(hAll (n + i)).2.1, ?_⟩⟩
  -- What is left has come to rest, so the step was a reduction.
  have hHere : (f n).stepsLeft _ = _ := hRest (n + i) (Nat.le_add_right _ _)
  have hThere : (f n).stepsLeft _ = _ := hRest (n + (i + 1)) (Nat.le_add_right _ _)
  have hPaid := hPays (n + i)
  rw [← hHere, Nat.add_assoc, ← hThere] at hPaid
  have hSome : ((f (n + i)).reduction? env).isSome = true := by
    by_contra hNot
    rw [if_neg hNot] at hPaid
    omega
  obtain ⟨id, hId⟩ := Option.isSome_iff_exists.mp hSome
  have hSteps := steps_next (hServes.keeps hBuilt) (f (n + i))
  rw [hId, (next_follow (hAll (n + i)).1).1, ← hSucc] at hSteps
  exact reducesTo_of_steps hSteps

end Runs

theorem paced_start (marks : LexMarks) (input : σ) (old : Option Tree) (firstId : NodeId) :
    (start marks input old firstId).Paced := ⟨by simp [start], by simp [start]⟩

theorem stepsLeft_start (marks : LexMarks) (input : σ) (old : Option Tree) (firstId : NodeId) (size : Nat) :
    (start marks input old firstId).stepsLeft size = 8 * size + 7 := rfl

/-! ## Input that is lost -/

/-- At the start of the text, with nothing at hand. -/
structure Stalled (Ok : σ → Prop) (s : Session σ) : Prop where
  input : Ok s.lex.input
  pending : s.pending = none
  deferred : s.deferred = none
  reuse : s.reuse = none
  position : s.position = 0

theorem stalled_start (marks : LexMarks) (input : σ) (hInput : Ok input) (firstId : NodeId) :
    (start marks input none firstId).Stalled Ok := ⟨hInput, rfl, rfl, rfl, rfl⟩

/-- Skipping is all that the host proposes about an error of the lexer, as panic mode does. -/
def SkipsErrors (env : SessionEnv σ) : Prop :=
  ∀ context s, context.isLexicalError = true → (env.host.recover context s).1 = .skip

theorem chooseRecovery_skip (hSkips : SkipsErrors env) (s : Session σ) (la : Lookahead)
    (hError : la.isLexicalError = true) (attempts : Nat) : (s.chooseRecovery env la attempts).1 = .skip := by
  have hValid (context : RecoveryContext) : context.validate .skip = .skip := by
    rw [RecoveryContext.validate]
    split <;> rfl
  rw [chooseRecovery]
  split
  · rfl
  · dsimp only
    rw [hSkips _ _ hError, hValid]

theorem recover_skip (hKeeps : env.Keeps Ok) (hSkips : SkipsErrors env) (s : Session σ) {t : Token}
    (hError : t.isError = true) :
    ∃ lex stats, (Ok s.lex.input → Ok lex.input) ∧ s.recover env (.token t) = .running {
      s with
      stack := s.stack.pushExtra (.errorLeaf s.nextId t.size t.lookahead s.state t.lexMode)
      lex, stats
      recoveries := some (s.position, s.attempts)
      lastSkip := none
      nextId := s.nextId + 1 } := by
  obtain ⟨lex, stats, hEq, hOk, -⟩ := chooseRecovery_eq hKeeps
    { s with recoveries := some (s.position, s.attempts) } (.token t) s.attempts
  have hSkip := chooseRecovery_skip hSkips { s with recoveries := some (s.position, s.attempts) } (.token t) hError
    s.attempts
  refine ⟨lex, stats, hOk, ?_⟩
  rw [recover]
  dsimp only
  generalize chooseRecovery env { s with recoveries := some (s.position, s.attempts) } (.token t) s.attempts = answer
    at hEq hSkip
  obtain ⟨recovery, r⟩ := answer
  obtain rfl : recovery = .skip := hSkip
  obtain rfl := hEq
  dsimp only
  rw [skip, if_pos hError]
  rfl

theorem Stalled.nextLookahead_eq (h : s.Stalled Ok) : s.nextLookahead env =
    (some (.token (s.lexAt env s.position (env.language.lexModeId s.state)).1),
      (s.lexAt env s.position (env.language.lexModeId s.state)).2) := by
  have hHere : s.reuseHere env = (.none, s) := by rw [reuseHere, h.reuse]
  rw [nextLookahead, h.pending, h.deferred, hHere]

section Lost

variable (hServes : env.host.Serves Ok bytes) (hBuilt : env.language.BuiltFrom g) (hNone : env.language.scanner = none)
  (hRejects : env.language.table.Rejects bytes) (hLength : bytes.length = 2 ^ 32) (hOptions : env.options.canStop = false)
  (hSkips : SkipsErrors env)
include hServes hBuilt hNone hRejects hLength hOptions hSkips

/-- A step from there finds an error over the whole text, which seems to have no size, and so comes back there. -/
theorem Stalled.next (h : s.Stalled Ok) : s.reduction? env = none ∧ ∃ t, s.next env = .running t ∧ t.Stalled Ok := by
  have hRuns : s.shouldStop env = false := by simp [shouldStop, hOptions]
  have hCounted : Stalled Ok { s with steps := s.steps + 1 } := ⟨h.input, h.pending, h.deferred, h.reuse, h.position⟩
  rw [Session.next, reduction?, hRuns]
  generalize { s with steps := s.steps + 1 } = r at hCounted ⊢
  have hInside : r.position < bytes.length := by
    rw [hCounted.position, hLength]
    decide
  obtain ⟨⟨furthest, hToken⟩, hOk⟩ := Language.lexWith_of_rejects hServes.toServes hRejects hInside
    (env.language.lexModeId r.state) r.stack.scannerState hCounted.input
  rw [← hNone] at hToken hOk
  obtain ⟨lex, stats, hLexed, hInput⟩ : ∃ lex stats, r.lexAt env r.position (env.language.lexModeId r.state) =
    (Language.errorToken r.position bytes.length furthest, { r with lex, stats }) ∧ Ok lex.input :=
      ⟨_, _, Prod.ext hToken rfl, hOk⟩
  obtain ⟨lex', stats', hOk', hRecover⟩ := recover_skip (hServes.keeps hBuilt) hSkips { r with lex, stats }
    (t := Language.errorToken r.position bytes.length furthest) rfl
  rw [hCounted.nextLookahead_eq, hLexed]
  refine ⟨rfl, _, hRecover, hOk' hInput, hCounted.pending, hCounted.deferred, hCounted.reuse, ?_⟩
  -- The position moves on by the size of the error, of which 32 bits keep nothing.
  change r.position + narrow (bytes.length - r.position) = 0
  rw [hCounted.position, hLength]
  rfl

theorem Stalled.nonReductions_eq (h : s.Stalled Ok) (steps : Nat) :
    s.nonReductions env steps = steps ∧ Session.run env steps s = none := by
  induction steps generalizing s with
  | zero => exact ⟨rfl, rfl⟩
  | succ steps ih =>
    obtain ⟨hReduction, t, hNext, ht⟩ := h.next hServes hBuilt hNone hRejects hLength hOptions hSkips
    obtain ⟨hCount, hRun⟩ := ih ht
    rw [nonReductions, Session.run, hNext, hReduction]
    constructor
    · dsimp only
      rw [hCount]
      exact Nat.add_comm _ _
    · exact hRun

end Lost

end Session

/-- Parsing makes progress whatever the recovery strategy answers: the steps of a run that do not reduce are in
proportion to the text, and a run that does not end leads into an endless chain of reductions on one lookahead. -/
theorem parse_progress {env : SessionEnv σ} {g : Grammar} (hBuilt : env.language.BuiltFrom g)
    (hNone : env.language.scanner = none) {Ok : σ → Prop} {bytes : List UInt8} (hServes : env.host.Serves Ok bytes)
    (hShort : bytes.length < 2 ^ 32) {input : σ} (hInput : Ok input) (marks : LexMarks) {old : Option Tree}
    (hOld : ∀ tree ∈ old, tree.Arises env.firstId ∧ tree.size = bytes.length) :
    (∀ steps, (Session.start marks input old env.firstId).nonReductions env steps ≤ 16 * (bytes.length + 1)) ∧
    ((∃ limit, (Session.run env limit (.start marks input old env.firstId)).isSome = true) ∨
      ∃ s, Session.Reaches env (.start marks input old env.firstId) s ∧ ∃ a, ∃ f : Nat → ParseStack, f 0 = s.stack ∧
        ∀ i, env.language.table.Reduces a (f i) (f (i + 1))) := by
  have hStart : Session.Covers env Ok bytes bytes.length (.start marks input old env.firstId) :=
    Session.covers_start hInput fun tree hTree =>
      ⟨(hOld tree hTree).1.former, (hOld tree hTree).2 ▸ Nat.le_max_left _ _⟩
  have hPaced := Session.paced_start marks input old env.firstId
  constructor
  · intro steps
    have hCount := hStart.nonReductions_le hServes hBuilt hNone hShort hPaced steps
    rw [Session.stepsLeft_start, Nat.max_self] at hCount
    omega
  · by_cases hEnds : ∃ limit, (Session.run env limit (.start marks input old env.firstId)).isSome = true
    · exact .inl hEnds
    · right
      simp only [not_exists, Bool.not_eq_true, Option.isSome_eq_false_iff, Option.isNone_iff_eq_none] at hEnds
      obtain ⟨f, hRun⟩ := hStart.reduces_of_endless hServes hBuilt hNone hShort hPaced hEnds
      obtain ⟨i, a, hChain⟩ := Session.chain_of_reducesTo fun i => (hRun i).2
      exact ⟨f i, (hRun i).1, a, fun j => (f (i + j)).stack, rfl, hChain⟩

/-- The second of two `a` was typed anew. -/
theorem repeated_progress : ∃ (tree : Tree) (next : NodeId), tree.Arises next ∧ tree.size = 2 ∧
    ∀ steps, (Session.start Parser.repeated.marks () (some tree) next).nonReductions
      ⟨Parser.repeated.language, Parser.plainHost "aa".toUTF8, {}, next⟩ steps ≤ 16 * (2 + 1) := by
  obtain ⟨tree, next, hArises, hSize, _⟩ := Parser.repeated_retyped
  refine ⟨tree, next, hArises, hSize, ?_⟩
  have hProgress := @parse_progress Unit ⟨Parser.repeated.language, Parser.plainHost "aa".toUTF8, {}, next⟩ _
    Parser.repeated_builtFrom rfl _ _ (Parser.plainHost_serves _) (by decide) () trivial Parser.repeated.marks (some tree)
    fun old hOld => by
      obtain rfl := Option.some.inj hOld
      exact ⟨hArises, hSize⟩
  exact hProgress.1

theorem Parser.repeated_rejects (n : Nat) : Parser.repeated.language.table.Rejects (List.replicate n 0x62) := by
  intro pos d hDecode node
  have hChar : d.char = 'b' := by
    rw [Source.decodeAt, List.drop_replicate] at hDecode
    cases hLeft : n - pos with
    | zero =>
      rw [hLeft] at hDecode
      cases hDecode
    | succ k =>
      have hWidth : Utf8.width 0x62 = 1 := by decide
      have hLetter : Utf8.decode? [0x62] = some 'b' := by decide
      rw [hLeft, List.replicate_succ] at hDecode
      simp [hWidth, hLetter] at hDecode
      rw [← hDecode]
  have hNodes : Parser.repeated.language.table.lexNodes = #[.accept ⟨1⟩, .chars ⟨#[('a', 'a')], false⟩ 0] := rfl
  rw [hChar, LexArena.after?, hNodes]
  rcases node.toNat with _ | _ | _
  · rfl
  · simp [LexArena.contains_single]
  · rfl

/-- From 2^32 letters `b` a parser for any number of `a` lexes an error without a size, over and over. It reduces at no
step and comes to no end. -/
theorem repeated_progress_long : ∃ text : List UInt8, text = List.replicate (2 ^ 32) 0x62 ∧
    (∀ steps, (Session.start Parser.repeated.marks () none 0).nonReductions
      ⟨Parser.repeated.language, Parser.plainHost ⟨text.toArray⟩, {}, 0⟩ steps = steps) ∧
    16 * (text.length + 1) < (Session.start Parser.repeated.marks () none 0).nonReductions
      ⟨Parser.repeated.language, Parser.plainHost ⟨text.toArray⟩, {}, 0⟩ (16 * (text.length + 1) + 1) ∧
    ∀ limit, Session.run ⟨Parser.repeated.language, Parser.plainHost ⟨text.toArray⟩, {}, 0⟩ limit
      (.start Parser.repeated.marks () none 0) = none := by
  obtain ⟨text, hText⟩ : ∃ text : List UInt8, text = List.replicate (2 ^ 32) 0x62 := ⟨_, rfl⟩
  have hLost := @Session.Stalled.nonReductions_eq Unit
    ⟨Parser.repeated.language, Parser.plainHost ⟨text.toArray⟩, {}, 0⟩ _ _ _ _ (Parser.plainHost_serves ⟨text.toArray⟩)
    Parser.repeated_builtFrom rfl (hText ▸ Parser.repeated_rejects (2 ^ 32)) (by rw [hText]; exact List.length_replicate) rfl
    (fun context _ hError => if_pos hError) (Session.stalled_start Parser.repeated.marks () trivial 0)
  refine ⟨text, hText, fun steps => (hLost steps).1, ?_, fun limit => (hLost limit).2⟩
  rw [(hLost _).1]
  exact Nat.lt_succ_self _

end Reparse
