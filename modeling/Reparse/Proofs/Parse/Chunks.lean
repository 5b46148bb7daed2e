import Reparse.Proofs.Lex.Chunks
import Reparse.Proofs.Parse.Productions
/-!
# Parses of chunked texts

Two sessions whose hosts answer alike take the same steps. So a text that is read through a callback, in whatever chunks,
is parsed as the bytes at hand are.
-/
namespace Reparse

variable {σ τ : Type} {R : σ → τ → Prop}

/-- In states that belong together the hosts answer alike. Their clocks may differ. -/
structure Host.Alike (host : Host σ) (host' : Host τ) (R : σ → τ → Prop) : Prop where
  source : host.source.Alike host'.source R
  recover : ∀ context s t, R s t → Tied R (host.recover context s) (host'.recover context t)
  /-- At any step the parses are cancelled alike. -/
  isCancelled : ∀ steps s t, R s t →
    host.isCancelled (host.meanwhile steps s) = host'.isCancelled (host'.meanwhile steps t)

def SessionEnv.withHost (env : SessionEnv σ) (host : Host τ) : SessionEnv τ :=
  ⟨env.language, host, env.options, env.firstId⟩

namespace Session

/-- The session with another input to read from. -/
def withInput (s : Session σ) (input : τ) : Session τ where
  lex := { marks := s.lex.marks, input, memory := s.lex.memory }
  reuse := s.reuse
  stack := s.stack
  stats := s.stats
  steps := s.steps
  pending := s.pending
  deferred := s.deferred
  recoveries := s.recoveries
  lastSkip := s.lastSkip
  wrapped := s.wrapped
  nextId := s.nextId

/-- The sessions differ in their inputs only, and these belong together. -/
inductive Tied (R : σ → τ → Prop) : Session σ → Session τ → Prop
  | mk {s : Session σ} {input : τ} : R s.lex.input input → Tied R s (s.withInput input)

end Session

/-- The steps have come to the same. -/
inductive Progress.Tied (R : σ → τ → Prop) : Progress σ → Progress τ → Prop
  | running {s : Session σ} {t : Session τ} : s.Tied R t → Tied R (.running s) (.running t)
  | finished {s : Session σ} {t : Session τ} (root : Subtree) (status : ParseStatus) : s.Tied R t →
    Tied R (.finished root status s) (.finished root status t)

namespace Session

variable {env : SessionEnv σ} {host : Host τ} {s : Session σ} {t : Session τ}

theorem Tied.position_eq {s : Session σ} {t : Session τ} (hs : s.Tied R t) : t.position = s.position := by
  cases hs
  rfl

theorem Tied.withPending {s : Session σ} {t : Session τ} (hs : s.Tied R t) (la : Option Lookahead) :
    Tied R { s with pending := la } { t with pending := la } := by
  cases hs with
  | mk h => exact .mk (s := { s with pending := la }) h

theorem Tied.withDeferred {s : Session σ} {t : Session τ} (hs : s.Tied R t) (la : Option Lookahead) :
    Tied R { s with deferred := la } { t with deferred := la } := by
  cases hs with
  | mk h => exact .mk (s := { s with deferred := la }) h

theorem Tied.pushExtra {s : Session σ} {t : Session τ} (hs : s.Tied R t) (leaf : Subtree) :
    Tied R { s with stack := s.stack.pushExtra leaf } { t with stack := t.stack.pushExtra leaf } := by
  cases hs with
  | mk h => exact .mk (s := { s with stack := s.stack.pushExtra leaf }) h

/-! ## What does not read -/

theorem reduce_tied (hs : s.Tied R t) (id : ProductionId) (extent : Nat) :
    (s.reduce env id extent).Tied R (t.reduce (env.withHost host) id extent) := by
  cases hs with
  | mk h => exact .mk (s := s.reduce env id extent) h

theorem shiftedLeaf_tied (env : SessionEnv σ) (host : Host τ) (hs : s.Tied R t) (la : Lookahead) :
    Reparse.Tied (Session.Tied R) (s.shiftedLeaf env la) (t.shiftedLeaf (env.withHost host) la) := by
  cases hs with
  | @mk input h =>
    cases la with
    | token t => exact .mk _ (.mk (s := { s with nextId := s.nextId + 1 }) h)
    | missing symbol => exact .mk _ (.mk (s := { s with nextId := s.nextId + 1 }) h)
    | reused leaf =>
      rw [shiftedLeaf, shiftedLeaf]
      change Reparse.Tied _ _ (if leaf.info.state = s.state then _ else _)
      split
      next => exact .mk _ (.mk h)
      next => exact .mk _ (.mk (s := { s with nextId := s.nextId + 1 }) h)

theorem shift_tied (hs : s.Tied R t) (next : StateId) (la : Lookahead) :
    (s.shift env next la).Tied R (t.shift (env.withHost host) next la) := by
  obtain ⟨leaf, u, v, hu, hv, hLeaf⟩ := (shiftedLeaf_tied env host hs la).parts
  rw [shift, shift, hu, hv]
  cases hLeaf with
  | mk h => exact .mk (s := { u with stack := u.stack.push next leaf }) h

theorem accept_tied (env : SessionEnv σ) (host : Host τ) (hs : s.Tied R t) :
    Reparse.Tied (Session.Tied R) (s.accept env) (t.accept (env.withHost host)) := by
  cases hs with
  | @mk input h =>
    dsimp only [accept, makeNode, takeNodeId, withInput, SessionEnv.withHost]
    split
    next => exact .mk _ (.mk (s := s.takeNodeId.2) h)
    next =>
      split
      next => exact .mk _ (.mk (s := s) h)
      next => exact .mk _ (.mk (s := s.takeNodeId.2) h)

theorem skipLeaf_tied (hs : s.Tied R t) (leaf : Subtree) :
    (s.skipLeaf env leaf).Tied R (t.skipLeaf (env.withHost host) leaf) := by
  cases hs with
  | @mk input h => exact .mk (s := s.skipLeaf env leaf) h

theorem popStack_tied (hs : s.Tied R t) (depth : Nat) :
    (s.popStack env depth).Tied R (t.popStack (env.withHost host) depth) := by
  cases hs with
  | @mk input h => exact .mk (s := s.popStack env depth) h

theorem skipAtEnd_tied (hs : s.Tied R t) : (s.skipAtEnd env).Tied R (t.skipAtEnd (env.withHost host)) := by
  cases hs with
  | @mk input h =>
    dsimp only [skipAtEnd, makeError, takeNodeId, withInput, SessionEnv.withHost]
    split
    next => exact .running (.mk (s := { s.takeNodeId.2 with stack := _, lastSkip := none, wrapped := true }) h)
    next => exact .finished _ _ (.mk (s := { s.takeNodeId.2 with stack := [], lastSkip := none }) h)

theorem skip_tied (hs : s.Tied R t) (la : Lookahead) : (s.skip env la).Tied R (t.skip (env.withHost host) la) := by
  cases la with
  | token token =>
    rw [skip, skip]
    split
    next =>
      cases hs with
      | @mk input h =>
        exact .running (.mk (s := { s with nextId := s.nextId + 1, stack := _, lastSkip := none }) h)
    next =>
      split
      next => exact skipAtEnd_tied hs
      next =>
        obtain ⟨leaf, u, v, hu, hv, hLeaf⟩ := (shiftedLeaf_tied env host hs (.token token)).parts
        rw [shiftedLeaf] at hu hv
        rw [hu, hv]
        exact .running (skipLeaf_tied hLeaf leaf)
  | missing symbol => exact .running hs
  | reused subtree => exact .running (skipLeaf_tied hs subtree)

theorem reuseHere_tied (env : SessionEnv σ) (host : Host τ) (hs : s.Tied R t) :
    Reparse.Tied (Session.Tied R) (s.reuseHere env) (t.reuseHere (env.withHost host)) := by
  cases hs with
  | @mk input h =>
    dsimp only [reuseHere, withInput, SessionEnv.withHost]
    split
    next => exact .mk _ (.mk (s := s) h)
    next cursor _ =>
      exact .mk _ (.mk (s := { s with reuse := some (findReuse env.language s.stack (cursor.moves + 1) cursor).2 }) h)

/-! ## What reads -/

variable (hHost : env.host.Alike host R)
include hHost

theorem lexAt_tied (hs : s.Tied R t) (position : Nat) (mode : LexModeId) :
    Reparse.Tied (Session.Tied R) (s.lexAt env position mode) (t.lexAt (env.withHost host) position mode) := by
  cases hs with
  | @mk input h =>
    have hLexed : s.lex.Tied R { marks := s.lex.marks, input, memory := s.lex.memory } := .mk s.lex.marks s.lex.memory h
    obtain ⟨token, u, v, hu, hv, hLex⟩ :=
      (lexWith_tied hHost.source env.language env.language.scanner position mode s.stack.scannerState hLexed).parts
    simp only [lexAt, SessionEnv.withHost, withInput, hu, hv]
    cases hLex with
    | @mk marks memory a b h => exact .mk _ (.mk (s := { s with lex := { marks, input := a, memory }, stats := _ }) h)

theorem followingFrom_tied (hs : s.Tied R t) (limit position : Nat) :
    Reparse.Tied (Session.Tied R) (followingFrom env limit position s)
      (followingFrom (env.withHost host) limit position t) := by
  induction limit generalizing position s t with
  | zero => exact .mk _ hs
  | succ limit ih =>
    obtain ⟨token, u, v, hu, hv, hLex⟩ := (lexAt_tied hHost hs position errorLexMode).parts
    rw [followingFrom, followingFrom, hu, hv]
    dsimp only
    split
    next => exact .mk _ hLex
    next =>
      by_cases hStop : token.symbol = .eof ∨ token.size = 0 ∨ (!env.language.isExtra token.symbol) = true
      · rw [if_pos hStop, if_pos (show _ ∨ _ ∨ (!(env.withHost host).language.isExtra token.symbol) = true from hStop)]
        exact .mk _ hLex
      · rw [if_neg hStop, if_neg (show ¬(_ ∨ _ ∨ (!(env.withHost host).language.isExtra token.symbol) = true) from hStop)]
        exact ih hLex token.stop

theorem chooseRecovery_tied (hs : s.Tied R t) (la : Lookahead) (attempts : Nat) :
    Reparse.Tied (Session.Tied R) (s.chooseRecovery env la attempts)
      (t.chooseRecovery (env.withHost host) la attempts) := by
  rw [chooseRecovery, chooseRecovery]
  split
  next => exact .mk _ hs
  next =>
    have hFollowing := followingFrom_tied hHost hs (env.host.source.size + 2) (la.stop s.position)
    obtain ⟨symbol, u, v, hu, hv, hAhead⟩ := hFollowing.parts
    have hSize : (env.withHost host).host.source.size = env.host.source.size := hHost.source.size_eq.symm
    rw [following, following, hs.position_eq, hSize, hu, hv]
    cases hAhead with
    | @mk input h =>
      have hChosen (context : RecoveryContext) : Reparse.Tied (Session.Tied R)
          (context.validate (env.host.recover context u.lex.input).1,
            { u with lex := { u.lex with input := (env.host.recover context u.lex.input).2 } })
          (context.validate (host.recover context input).1, u.withInput (host.recover context input).2) := by
        obtain ⟨proposed, a, b, ha, hb, hRest⟩ := (hHost.recover context u.lex.input input h).parts
        rw [ha, hb]
        exact .mk _ (.mk (s := { u with lex := { u.lex with input := a } }) hRest)
      exact hChosen _

theorem recover_tied (hs : s.Tied R t) (la : Lookahead) : (s.recover env la).Tied R (t.recover (env.withHost host) la) := by
  have hAttempts : t.attempts = s.attempts := by
    cases hs
    rfl
  have hAsks : Tied R { s with recoveries := some (s.position, s.attempts) }
      { t with recoveries := some (t.position, t.attempts) } := by
    cases hs with
    | @mk input h => exact .mk (s := { s with recoveries := some (s.position, s.attempts) }) h
  obtain ⟨recovery, u, v, hu, hv, hChosen⟩ := (chooseRecovery_tied hHost hAsks la s.attempts).parts
  rw [← hAttempts] at hv
  rw [recover, recover]
  simp only [hu, hv]
  cases recovery with
  | skip => exact skip_tied hChosen la
  | insert symbol => exact .running ((hChosen.withDeferred (some la)).withPending (some (.missing symbol)))
  | pop depth => exact .running ((popStack_tied hChosen depth).withPending (some la))

theorem withoutAction_tied (hs : s.Tied R t) (la : Lookahead) :
    (s.withoutAction env la).Tied R (t.withoutAction (env.withHost host) la) := by
  cases la with
  | token token =>
    rw [withoutAction, withoutAction]
    change Progress.Tied _ _ (if !token.isError && env.language.isExtra token.symbol then _ else _)
    split
    next =>
      obtain ⟨leaf, u, v, hu, hv, hLeaf⟩ := (shiftedLeaf_tied env host hs (.token token)).parts
      rw [shiftedLeaf] at hu hv
      rw [hu, hv]
      exact .running (hLeaf.pushExtra leaf)
    next => exact recover_tied hHost hs (.token token)
  | missing symbol => exact .running hs
  | reused subtree =>
    rw [withoutAction, withoutAction]
    split
    next => exact .running (hs.pushExtra subtree)
    next => exact recover_tied hHost hs (.reused subtree)

theorem act_tied (hs : s.Tied R t) (la : Lookahead) : (s.act env la).Tied R (t.act (env.withHost host) la) := by
  have hAction : t.actionOn (env.withHost host) la = s.actionOn env la := by
    cases hs
    rfl
  rw [act, act, hAction, hs.position_eq]
  cases s.actionOn env la with
  | none => exact withoutAction_tied hHost hs la
  | some action =>
    cases action with
    | shift next => exact .running (shift_tied hs next la)
    | reduce id => exact .running ((reduce_tied hs id (la.extent s.position)).withPending (some la))
    | accept =>
      obtain ⟨root, u, v, hu, hv, hAccepted⟩ := (accept_tied env host hs).parts
      simp only [hu, hv]
      exact .finished root .complete hAccepted

theorem step_tied (hs : s.Tied R t) (la : Lookahead) : (s.step env la).Tied R (t.step (env.withHost host) la) := by
  cases la with
  | token token => exact act_tied hHost hs (.token token)
  | missing symbol => exact act_tied hHost hs (.missing symbol)
  | reused subtree =>
    rw [step, step]
    split
    next => exact act_tied hHost hs (.reused subtree)
    next =>
      cases hs with
      | @mk input h =>
        exact .running (.mk (s := {
          s with stack := s.stack.push ((env.language.table.goto s.state subtree.symbol).getD s.state) subtree }) h)

theorem nextLookahead_tied (hs : s.Tied R t) :
    Reparse.Tied (Session.Tied R) (s.nextLookahead env) (t.nextLookahead (env.withHost host)) := by
  have hHeld : t.pending = s.pending ∧ t.deferred = s.deferred := by
    cases hs
    exact ⟨rfl, rfl⟩
  rw [nextLookahead, nextLookahead, hHeld.1]
  cases s.pending with
  | some la => exact .mk _ (hs.withPending none)
  | none =>
    rw [hHeld.2]
    cases s.deferred with
    | some la => exact .mk _ ((hs.withPending none).withDeferred none)
    | none =>
      obtain ⟨found, u, v, hu, hv, hSearched⟩ := (reuseHere_tied env host hs).parts
      rw [hu, hv]
      cases found with
      | subtree subtree =>
        cases hSearched with
        | @mk input h =>
          exact .mk _ (.mk (s := { u with stats := { u.stats with subtreesReused := u.stats.subtreesReused + 1 } }) h)
      | reduce id extent => exact .mk _ (reduce_tied hSearched id extent)
      | none =>
        have hMode : (env.withHost host).language.lexModeId v.state = env.language.lexModeId u.state := by
          cases hSearched
          rfl
        obtain ⟨token, u', v', hu', hv', hLexed⟩ :=
          (lexAt_tied hHost hSearched u.position (env.language.lexModeId u.state)).parts
        simp only [hSearched.position_eq, hMode, hu', hv']
        exact .mk _ hLexed

theorem cancelledRoot_tied (hs : s.Tied R t) :
    Reparse.Tied (Session.Tied R) (s.cancelledRoot env) (t.cancelledRoot (env.withHost host)) := by
  cases hs with
  | @mk input h =>
    obtain ⟨stop, a, b, ha, hb, hRest⟩ := (hHost.source.endFrom s.position s.lex.input input h).parts
    have hEnd : (env.withHost host).host.source.endFrom (s.withInput input).position (s.withInput input).lex.input =
      (stop, b) := hb
    rw [cancelledRoot, cancelledRoot, ha, hEnd]
    exact .mk _ (.mk (s := { s with lex := { s.lex with input := a }, stack := [], nextId := s.nextId + 1 + 1 }) hRest)

/-- Without a limit of time the sessions take the same step. -/
theorem next_tied (hTimeout : env.options.timeout = none) (hs : s.Tied R t) :
    (s.next env).Tied R (t.next (env.withHost host)) := by
  have hStop : t.shouldStop (env.withHost host) = s.shouldStop env := by
    cases hs with
    | @mk input h =>
      have hCancelled := hHost.isCancelled s.steps s.lex.input input h
      simp only [shouldStop, withInput, SessionEnv.withHost, hTimeout, hCancelled, Option.any_none]
      rfl
  have hCounted : Tied R { s with steps := s.steps + 1 } { t with steps := t.steps + 1 } := by
    cases hs with
    | mk h => exact .mk (s := { s with steps := s.steps + 1 }) h
  rw [next, next, hStop]
  split
  next =>
    obtain ⟨root, u, v, hu, hv, hStopped⟩ := (cancelledRoot_tied hHost hCounted).parts
    simp only [hu, hv]
    exact .finished root .cancelled hStopped
  next =>
    obtain ⟨la, u, v, hu, hv, hTaken⟩ := (nextLookahead_tied hHost hCounted).parts
    simp only [hu, hv]
    cases la with
    | none => exact .running hTaken
    | some la => exact step_tied hHost hTaken la

/-! ## Runs -/

theorem run_tied (hTimeout : env.options.timeout = none) (hs : s.Tied R t) (limit : Nat) :
    Option.Rel (fun a b => a.1 = b.1 ∧ a.2.1 = b.2.1 ∧ a.2.2.Tied R b.2.2) (run env limit s)
      (run (env.withHost host) limit t) := by
  induction limit generalizing s t with
  | zero => exact .none
  | succ limit ih =>
    have hNext := next_tied hHost hTimeout hs
    rw [run, run]
    generalize s.next env = p at hNext ⊢
    generalize t.next (env.withHost host) = q at hNext ⊢
    cases hNext with
    | running h => exact ih h
    | finished root status h => exact .some ⟨rfl, rfl, h⟩

end Session

/-! ## Parses -/

section Callbacks

variable {κ : Type}

/-- Inside the text the callback answers with some of the bytes that are left, and with none from its end on. -/
structure Source.Cuts (call : Nat → κ → ByteArray × κ) (bytes : List UInt8) : Prop where
  front : ∀ offset k, (call offset k).1.data.toList <+: bytes.drop offset
  size_pos : ∀ offset k, offset < bytes.length → 0 < (call offset k).1.size

/-- The host with a text that is read through a callback, which has a state of its own, and with another clock. -/
def Host.chunked (host : Host σ) (size : Nat) (call : Nat → κ → ByteArray × κ)
    (elapsed : Source.Cache × κ × σ → Nat) : Host (Source.Cache × κ × σ) where
  source := .chunked size fun offset state => ((call offset state.1).1, (call offset state.1).2, state.2)
  recover context state :=
    ((host.recover context state.2.2).1, state.1, state.2.1, (host.recover context state.2.2).2)
  isCancelled state := host.isCancelled state.2.2
  elapsed := elapsed
  meanwhile steps state := (state.1, state.2.1, host.meanwhile steps state.2.2)

/-- The chunk at hand is a piece of the text, and what the callback does not touch is as it would be without it. -/
def Source.Cache.Beside (bytes : List UInt8) (state : Source.Cache × κ × σ) (input : σ) : Prop :=
  state.1.Fits bytes ∧ state.2.2 = input

theorem Host.chunked_alike (host : Host σ) {bytes : ByteArray} {call : Nat → κ → ByteArray × κ}
    (hCuts : Source.Cuts call bytes.data.toList) (elapsed : Source.Cache × κ × σ → Nat) :
    (host.chunked bytes.size call elapsed).Alike { host with source := .ofBytes bytes }
      (Source.Cache.Beside bytes.data.toList) where
  source := by
    have hLength : bytes.data.toList.length = bytes.size := by simp
    have hPieces (offset : Nat) (k : κ) (i : Nat) (hi : i < (call offset k).1.size) :
        (call offset k).1.data.toList[i]? = bytes.data.toList[offset + i]? := by
      obtain ⟨rest, hRest⟩ := hCuts.front offset k
      rw [← List.getElem?_drop, ← hRest, List.getElem?_append_left hi]
    have hServes (x : σ) : (host.chunked bytes.size call elapsed).source.Serves
        (fun state => state.1.Fits bytes.data.toList ∧ state.2.2 = x) bytes.data.toList := by
      have hSource : (host.chunked bytes.size call elapsed).source = Source.chunked bytes.data.toList.length
          fun offset state => ((call offset state.1).1, (call offset state.1).2, state.2) := by rw [hLength]; rfl
      rw [hSource]
      apply @Source.serves_chunked (κ × σ) bytes.data.toList _ fun state => state.2 = x
      · exact fun _ _ hs => hs
      · exact fun offset state _ => hCuts.size_pos offset state.1
      · exact fun offset state i _ hi _ => hPieces offset state.1 i hi
    apply Source.alike_of_serves hServes (fun x => Source.serves_ofBytes_of bytes (· = x)) rfl
    intro state input
    constructor
    · rintro ⟨hFits, hSame⟩
      exact ⟨input, ⟨hFits, hSame⟩, rfl⟩
    · rintro ⟨x, hs, rfl⟩
      exact hs
  recover context state input := by
    rintro ⟨hFits, rfl⟩
    exact tied_of_eq rfl ⟨hFits, rfl⟩
  isCancelled steps state input := by
    rintro ⟨-, rfl⟩
    rfl

/-- However the text is cut into chunks, a parse without a limit of time ends as one of the bytes at hand, or like it
does not end. -/
theorem parse_chunked (p : Parser) (hTimeout : p.options.timeout = none) (host : Host σ) (bytes : ByteArray)
    {call : Nat → κ → ByteArray × κ} (hCuts : Source.Cuts call bytes.data.toList) (elapsed : Source.Cache × κ × σ → Nat)
    {cache : Source.Cache} (hCache : cache.Fits bytes.data.toList) (k : κ) (input : σ) (old : Option Tree) (next : NodeId)
    (limit : Nat) :
    (p.parse limit (host.chunked bytes.size call elapsed) (cache, k, input) old next).map
        (fun parsed => (parsed.tree, parsed.parser, parsed.nextId, parsed.input.2.2)) =
      (p.parse limit { host with source := .ofBytes bytes } input old next).map
        fun parsed => (parsed.tree, parsed.parser, parsed.nextId, parsed.input) := by
  have hStart : Session.Tied (Source.Cache.Beside bytes.data.toList)
      (.start p.marks (cache, k, input) (old.filter fun tree => tree.language.sameAs p.language) next)
      (.start p.marks input (old.filter fun tree => tree.language.sameAs p.language) next) :=
    .mk ⟨hCache, rfl⟩
  have hAlike : (SessionEnv.host ⟨p.language, host.chunked bytes.size call elapsed, p.options, next⟩).Alike
      { host with source := .ofBytes bytes } (Source.Cache.Beside bytes.data.toList) := host.chunked_alike hCuts elapsed
  have hRun := Session.run_tied hAlike hTimeout hStart limit
  rw [Parser.parse, Parser.parse]
  simp only [Option.map_map]
  change Option.Rel _ _ (Session.run ⟨p.language, { host with source := .ofBytes bytes }, p.options, next⟩ limit _) at hRun
  generalize Session.run _ limit _ = a at hRun ⊢
  generalize Session.run _ limit _ = b at hRun ⊢
  cases hRun with
  | none => rfl
  | @some ended ended' h =>
    obtain ⟨root, status, s⟩ := ended
    obtain ⟨root', status', t⟩ := ended'
    obtain ⟨rfl, rfl, hTied⟩ : root = root' ∧ status = status' ∧ s.Tied (Source.Cache.Beside bytes.data.toList) t := h
    cases hTied with
    | mk hInput =>
      have hFinish : Parser.finish (⟨p.language, { host with source := .ofBytes bytes }, p.options, next⟩ : SessionEnv σ) root
          status s.nextId =
        Parser.finish ⟨p.language, host.chunked bytes.size call elapsed, p.options, next⟩ root status s.nextId := rfl
      simp only [Option.map_some, Function.comp, Session.withInput, hFinish, hInput.2]

end Callbacks

/-- One byte and two bytes by turns. -/
def Source.byTurns (bytes : ByteArray) (offset : Nat) (two : Bool) : ByteArray × Bool :=
  (bytes.extract offset (offset + if two then 2 else 1), !two)

theorem Source.cuts_byTurns (bytes : ByteArray) : Cuts (byTurns bytes) bytes.data.toList where
  front offset two := by
    rw [byTurns, ByteArray.data_extract, Array.toList_extract, List.extract_eq_take_drop]
    exact List.take_prefix _ _
  size_pos offset two hOffset := by
    have hLength : bytes.data.toList.length = bytes.size := by simp
    rw [byTurns, ByteArray.size_extract]
    cases two <;> simp only [Bool.false_eq_true, if_true, if_false] <;> omega

/-- Cancelled from the step `due` on, whatever the parse does. -/
def Host.cancelledAt (due : Nat) (bytes : ByteArray) : Host Bool where
  source := .ofBytes bytes
  recover context cancelled := (context.panicMode, cancelled)
  isCancelled cancelled := cancelled
  elapsed _ := 0
  meanwhile steps cancelled := cancelled || due ≤ steps

/-- Looks at every step whether it is cancelled. -/
def Parser.watchful : Parser := { Parser.spaced with options := { cancellable := true, checkInterval := 1 } }

/-- The second character takes two bytes, which come in two chunks. A parse that is cancelled behind them covers the text
nonetheless. -/
theorem spaced_chunked : [Host.cancelledAt 40 .empty, Host.cancelledAt 3 .empty].map (fun host =>
      (Parser.watchful.parse 40 (host.chunked "aé a".toUTF8.size (Source.byTurns "aé a".toUTF8) fun _ => 0)
        (.empty, true, false) none 0).map fun parsed =>
          (parsed.tree.status, parsed.tree.root.size, parsed.parser.stats.tokensLexed)) =
    [some (.complete, 5, 7), some (.cancelled, 5, 4)] := by
  have hBytes : [Host.cancelledAt 40 .empty, Host.cancelledAt 3 .empty].map (fun host =>
      (Parser.watchful.parse 40 { host with source := .ofBytes "aé a".toUTF8 } false none 0).map fun parsed =>
        (parsed.tree.status, parsed.tree.root.size, parsed.parser.stats.tokensLexed)) =
      [some (.complete, 5, 7), some (.cancelled, 5, 4)] := by decide +kernel
  have hEmpty : Source.Cache.empty.Fits "aé a".toUTF8.data.toList := fun i hi => absurd hi (Nat.not_lt_zero i)
  rw [← hBytes]
  refine List.map_congr_left fun host _ => ?_
  have hSame := parse_chunked Parser.watchful rfl host "aé a".toUTF8 (Source.cuts_byTurns "aé a".toUTF8) (fun _ => 0)
    hEmpty true false none 0 40
  have hCounted := congrArg (Option.map fun r : Tree × Parser × NodeId × Bool =>
    (r.1.status, r.1.root.size, r.2.1.stats.tokensLexed)) hSame
  rwa [Option.map_map, Option.map_map] at hCounted

end Reparse
