import Reparse.Proofs.Parse.Opening
import Reparse.Proofs.Tree.Fronts
/-!
# Parses from scratch

Every step of a parse without an old tree keeps the opening of its stack or leaves an error on it. So the root of such a
parse has an error, or it is a node of the first state that begins with a leaf lexed there.
-/
namespace Reparse

open Subtree

variable {σ : Type}

namespace Language

variable {l : Language}

theorem lexAutomata_lexMode (l : Language) (src : Source σ) (pos : Nat) (id : LexModeId) (s : LexState σ) :
    (l.lexAutomata src pos id s).1.lexMode = id ∨ (l.lexAutomata src pos id s).1.lexMode = errorLexMode := by
  have hInternal (mode : LexMode) (id : LexModeId) (s : LexState σ) {token : Token} {s' : LexState σ}
      (hLex : l.lexInternal src pos mode id s = (some token, s')) : token.lexMode = id := by
    rw [lexInternal] at hLex
    split at hLex
    · obtain rfl := Option.some.inj (congrArg Prod.fst hLex)
      rfl
    · cases congrArg Prod.fst hLex
  rw [lexAutomata]
  split
  next => exact .inl rfl
  next =>
    split
    next token s' hLex => exact .inl (hInternal _ _ _ hLex)
    next =>
      split
      next => exact .inr rfl
      next =>
        split
        next token s' hLex => exact .inr (hInternal _ _ _ hLex)
        next => exact .inr rfl

theorem lexWith_lexMode (l : Language) (scanner : Option ExternalScanner) (src : Source σ) (pos : Nat) (id : LexModeId)
    (state : Option (List UInt8)) (s : LexSession σ) :
    (l.lexWith scanner src pos id state s).1.lexMode = id ∨
      (l.lexWith scanner src pos id state s).1.lexMode = errorLexMode := by
  cases scanner with
  | none => exact l.lexAutomata_lexMode src pos id s.toLexState
  | some scanner =>
    rw [lexWith]
    split
    next =>
      split
      next token memory input hLex =>
        have hToken : (l.lexExternal scanner src pos id state (s.memory.getD scanner.fresh) s.input).1.1 = some token := by
          rw [hLex]
        simp only [lexExternal, Option.bind_eq_bind, Option.bind_eq_some_iff] at hToken
        obtain ⟨_, _, _, _, hToken⟩ := hToken
        split at hToken
        · obtain rfl := Option.some.inj hToken
          exact .inl rfl
        · cases hToken
      next => exact l.lexAutomata_lexMode src pos id _
    next => exact l.lexAutomata_lexMode src pos id s.toLexState

end Language

/-- The root of a parse from scratch without errors. -/
structure Subtree.Rooted (l : Language) (root : Subtree) : Prop where
  symbol : root.symbol = l.table.start
  structural : root.isExtra = false
  state : root.info.state = 0
  mode : l.Begins root.info.firstMode
  full : root.Full l ∨ root.size = 0
  accepted : ∃ q, l.table.goto 0 l.table.start = some q ∧ l.table.action q .eof = some .accept

namespace Session

variable {env : SessionEnv σ} {g : Grammar} {w : LoweredGrammar} {s t : Session σ} {la : Lookahead} {W : Lookahead → Prop}

/-- The lookahead is kept for a later step. -/
def Waits (s : Session σ) (la : Lookahead) : Prop := s.pending = some la ∨ s.deferred = some la

/-- Nothing is reused, and the stack has an error or is the opening of a parse from scratch. `W` is what waits, the
lookahead at hand included. -/
structure Opened (env : SessionEnv σ) (W : Lookahead → Prop) (s : Session σ) : Prop where
  reuse : s.reuse = none
  fresh : ∀ la, W la → ∀ x, la ≠ .reused x
  deferred : ∀ symbol, s.deferred ≠ some (.missing symbol)
  /-- A token is inserted before another one. -/
  missing : ∀ symbol, W (.missing symbol) → s.deferred.isSome = true
  stack : s.stack.Marred env.language ∨ s.stack.Opening env.language W

theorem opened_start {marks : LexMarks} {input : σ} {firstId : NodeId} :
    (start marks input none firstId).Opened env (start marks input none firstId).Waits where
  reuse := rfl
  fresh la hla := by rcases hla with hla | hla <;> cases hla
  deferred symbol hDeferred := by cases hDeferred
  missing symbol hMissing := by rcases hMissing with h | h <;> cases h
  stack := .inr (ParseStack.opening_nil fun la hla => by rcases hla with hla | hla <;> cases hla)

/-! ## Lookaheads -/

theorem Takes.opened (h : s.Opened env s.Waits) {id : Option ProductionId} (hTakes : Takes env s (some la) id t) :
    t.Opened env fun x => x = la ∨ t.Waits x := by
  cases hTakes with
  | pending hPending =>
    have hOld {x : Lookahead} (hx : x = la ∨ Waits { s with pending := none } x) : s.Waits x := by
      rcases hx with rfl | hx | hx
      · exact .inl hPending
      · cases hx
      · exact .inr hx
    refine ⟨h.reuse, fun x hx => h.fresh x (hOld hx), h.deferred, fun symbol hx => h.missing symbol (hOld hx), ?_⟩
    exact h.stack.imp_right fun hOpening => hOpening.congr (fun _ => hOld) fun _ => ⟨la, .inl rfl⟩
  | deferred hPending hDeferred =>
    have hOld {x : Lookahead} (hx : x = la ∨ Waits { s with deferred := none } x) : s.Waits x := by
      rcases hx with rfl | hx | hx
      · exact .inr hDeferred
      · exact .inl hx
      · cases hx
    refine ⟨h.reuse, fun x hx => h.fresh x (hOld hx), by simp, ?_, ?_⟩
    · rintro symbol (rfl | hx | hx)
      · exact absurd hDeferred (h.deferred symbol)
      · exact absurd (hPending.symm.trans hx) (by simp)
      · cases hx
    · exact h.stack.imp_right fun hOpening => hOpening.congr (fun _ => hOld) fun _ => ⟨la, .inl rfl⟩
  | reused _ _ hReuse => exact absurd (h.reuse.symm.trans hReuse) (by simp)
  | @lexed reuse lex stats token hPending hDeferred hMoves hLex =>
    have hNone (x : Lookahead) : ¬s.Waits x := by
      rintro (hx | hx)
      · exact absurd (hPending.symm.trans hx) (by simp)
      · exact absurd (hDeferred.symm.trans hx) (by simp)
    have hOnly {x : Lookahead} (hx : x = .token token ∨ Waits { s with reuse, lex, stats } x) : x = .token token :=
      hx.resolve_right (hNone x)
    have hReuse : reuse = none := by
      rw [h.reuse] at hMoves
      cases hMoves
      rfl
    refine ⟨hReuse, ?_, h.deferred, ?_, ?_⟩
    · intro x hx y
      rw [hOnly hx]
      simp
    · intro symbol hx
      cases hOnly hx
    · refine h.stack.imp_right fun hOpening => ?_
      have hBegins : s.stack = [] → env.language.Begins token.lexMode := by
        intro hNil
        have hMode := env.language.lexWith_lexMode env.language.scanner env.host.source s.position
          (env.language.lexModeId s.state) s.stack.scannerState s.lex
        rw [hLex, state, hNil] at hMode
        exact hMode
      have hEmpty : s.stack.Opening env.language fun _ => False := by
        apply hOpening.congr
        · intro x hFalse
          cases hFalse
        · rintro ⟨x, hx⟩
          exact absurd hx (hNone x)
      exact (hEmpty.lexed hBegins).congr (fun _ => hOnly) fun _ => ⟨_, .inl rfl⟩

/-! ## Roots -/

theorem rooted_ofChildren {l : Language} {id : NodeId} {children : List Subtree} {production : ProductionId}
    (hHead : ∀ x ∈ children.head?, l.Begins x.info.firstMode) {q : StateId} (hGoto : l.table.goto 0 l.table.start = some q)
    (hAction : l.table.action q .eof = some .accept) :
    (ofChildren l id l.table.start children production 0).Rooted l where
  symbol := rfl
  structural := rfl
  state := rfl
  mode := by
    cases children with
    | nil => exact l.begins_lexModeId
    | cons x rest => exact hHead x rfl
  full := by
    cases children with
    | nil => exact .inr rfl
    | cons x rest => exact .inl (.inl (List.cons_ne_nil x rest))
  accepted := ⟨q, hGoto, hAction⟩

/-- What the start symbol is put into begins as the parse did. -/
theorem begins_wrapped {l : Language} {stack : ParseStack} (h : stack.Opening l W) {leading trailing : List Subtree}
    {root : Subtree} (hParts : stack.subtrees = leading ++ root :: trailing) (hTrailing : ∀ x ∈ trailing, x.isExtra = true)
    (hLeading : ∀ x ∈ leading, x.isExtra = true) (hStructural : root.isExtra = false)
    (hTerminal : l.isTerminal root.symbol = false) (hHeaded : Headed root.info root.children) :
    ∀ x ∈ (leading ++ root.children ++ trailing).head?, l.Begins x.info.firstMode := by
  intro x hx
  have hFirst := h.first
  rw [hParts] at hFirst
  cases leading with
  | cons y rest => exact hFirst x hx
  | nil =>
    rw [List.nil_append] at hx hParts hFirst
    cases hChildren : root.children with
    | cons c rest =>
      rw [hChildren] at hx hHeaded
      obtain rfl : c = x := Option.some.inj hx
      obtain ⟨-, hSame⟩ := hHeaded (List.cons_ne_nil c rest)
      have hMode : root.info.firstMode = c.info.firstMode := congrArg Prod.snd (Option.some.inj hSame)
      rw [← hMode]
      exact hFirst root rfl
    | nil =>
      -- An empty node tells no mode, so the extra behind it is the first leaf.
      rw [hChildren, List.nil_append] at hx
      obtain ⟨rest, rfl⟩ := List.head?_eq_some_iff.mp hx
      have hExtra : x.isExtra = true := hTrailing x List.mem_cons_self
      have hFind : stack.subtrees.find? isExtra = some x := by
        rw [hParts, List.find?_cons_of_neg (by simp [hStructural]), List.find?_cons_of_pos hExtra]
      cases h.phase with
      | @full y hMem hNot hFull =>
        rw [hParts] at hMem
        obtain rfl : y = root := by
          refine (List.mem_cons.mp hMem).resolve_right fun hBehind => ?_
          exact absurd (hNot.symm.trans (hTrailing y hBehind)) Bool.false_ne_true
        rcases hFull with hNonempty | hToken
        · exact absurd hChildren hNonempty
        · exact absurd (hTerminal.symm.trans hToken) Bool.false_ne_true
      | extra hSome hBegins =>
        obtain rfl := Option.some.inj (hSome.symm.trans hFind)
        exact hBegins
      | bare hNone => exact absurd (hNone.symm.trans hFind) (by simp)

theorem hasError_of_mem {symbol : Symbol} {children : List Subtree} {x : Subtree} (hMem : x ∈ children)
    (hError : x.hasError = true) : (symbol.isError || children.any hasError) = true := by
  apply Bool.or_eq_true_iff.mpr
  exact .inr (List.any_eq_true.mpr ⟨x, hMem, hError⟩)

theorem hasError_accept (h : s.stack.Marred env.language) (hKeeps : s.Keeps Headed)
    (hSymbols : symbolsOf s.stack.subtrees = [env.language.table.start])
    (hStart : env.language.isTerminal env.language.table.start = false) : (s.accept env).1.hasError = true := by
  obtain ⟨x, hx, hError, hFull⟩ := h
  have hRoots := roots_accept env s
  generalize s.accept env = result at hRoots ⊢
  cases hRoots with
  | extras => exact hasError_of_mem hx hError
  | alone hAlone =>
    rw [hAlone, List.mem_singleton] at hx
    exact hx ▸ hError
  | @wrapped leading trailing root hParts hLeading hStructural =>
    rw [hParts, List.mem_append, List.mem_cons] at hx
    rcases hx with hx | rfl | hx
    · exact hasError_of_mem (by simp [hx]) hError
    · -- The error is the start symbol's node, which has children, so it is in one of them.
      rw [hParts, symbolsOf_append, ← List.singleton_append, symbolsOf_append, symbolsOf_extras hLeading,
        symbolsOf_singleton hStructural] at hSymbols
      have hSymbol : x.symbol = env.language.table.start := (List.cons.inj hSymbols).1
      have hTerminal : env.language.isTerminal x.symbol = false := by rw [hSymbol, hStart]
      have hNonempty : x.children ≠ [] := by
        refine (hFull.resolve_left (by simp [hStructural])).resolve_right ?_
        simp [hTerminal]
      have hNode : x.All Headed := hKeeps.stack x (by rw [hParts]; simp)
      obtain ⟨hBelow, -⟩ := hNode.here hNonempty
      rw [show x.info.hasError = true from hError] at hBelow
      have hNotError : x.info.symbol.isError = false := by
        rw [Language.isTerminal, Bool.or_eq_false_iff] at hTerminal
        exact hTerminal.1
      rw [hNotError, Bool.false_or] at hBelow
      obtain ⟨c, hc, hcError⟩ := List.any_eq_true.mp hBelow.symm
      exact hasError_of_mem (by simp [hc]) hcError
    · exact hasError_of_mem (by simp [hx]) hError

theorem rooted_accept (hRules : env.language.FromRules g w) (h : s.stack.Opening env.language W)
    (hProductive : s.Productive env w) (hKeeps : s.Keeps Headed)
    (hSymbols : symbolsOf s.stack.subtrees = [env.language.table.start])
    (hStart : env.language.isTerminal env.language.table.start = false)
    (hAction : env.language.table.action s.state .eof = some .accept) : (s.accept env).1.Rooted env.language := by
  have hAlone {x : Subtree} (hx : x ∈ s.stack.subtrees) (hStructural : x.isExtra = false) :
      x.symbol = env.language.table.start ∧ x.info.state = 0 ∧ (x.Full env.language ∨ x.size = 0) ∧
        env.language.table.goto 0 env.language.table.start = some s.state := by
    obtain ⟨hState, hFull, hLeads⟩ := h.seated.alone hProductive.linked hSymbols hx hStructural
    have hSymbol : x.symbol = env.language.table.start := by
      have hMem := mem_symbolsOf hx hStructural
      rwa [hSymbols, List.mem_singleton] at hMem
    rw [hSymbol] at hLeads
    refine ⟨hSymbol, hState, hFull, hLeads.resolve_left fun hShift => ?_⟩
    exact absurd (hStart.symm.trans (hRules.isTerminal_of_action hShift)) Bool.false_ne_true
  obtain ⟨x, hx, hStructural⟩ : ∃ x ∈ s.stack.subtrees, x.isExtra = false := by
    by_contra hNone
    push Not at hNone
    rw [symbolsOf_extras fun x hx => by simpa using hNone x hx] at hSymbols
    cases hSymbols
  obtain ⟨-, -, -, hGoto⟩ := hAlone hx hStructural
  have hRoots := roots_accept env s
  generalize s.accept env = result at hRoots ⊢
  cases hRoots with
  | extras => exact rooted_ofChildren h.first hGoto hAction
  | @alone root hParts =>
    have hMem : root ∈ s.stack.subtrees := by rw [hParts]; exact List.mem_singleton_self root
    rw [hParts, List.mem_singleton] at hx
    obtain ⟨hSymbol, hState, hFull, -⟩ := hAlone hMem (hx ▸ hStructural)
    exact ⟨hSymbol, hx ▸ hStructural, hState, h.first root (by rw [hParts]; rfl), hFull, _, hGoto, hAction⟩
  | @wrapped leading trailing root hParts hLeading hNot =>
    have hMem : root ∈ s.stack.subtrees := by rw [hParts]; simp
    obtain ⟨hSymbol, hState, -, -⟩ := hAlone hMem hNot
    rw [hState, hSymbol]
    refine rooted_ofChildren ?_ hGoto hAction
    have hTrailing : ∀ x ∈ trailing, x.isExtra = true := by
      rw [hParts, ← List.singleton_append, symbolsOf_append, symbolsOf_append, symbolsOf_extras hLeading,
        symbolsOf_singleton hNot, List.nil_append, List.singleton_append] at hSymbols
      obtain ⟨-, hNone⟩ := List.cons.inj hSymbols
      intro x hx
      by_contra hStands
      have hIn := mem_symbolsOf hx (by simpa using hStands)
      rw [hNone] at hIn
      cases hIn
    exact begins_wrapped h hParts hTrailing hLeading hNot (hSymbol ▸ hStart) (hKeeps.stack root hMem).here

theorem Opened.accept (hRules : env.language.FromRules g w) (h : s.Opened env W) (hProductive : s.Productive env w)
    (hKeeps : s.Keeps Headed) (hAction : s.actionOn env la = some .accept) :
    (s.accept env).1.hasError = true ∨ (s.accept env).1.Rooted env.language := by
  obtain ⟨states, kernels, hBuilt, hAutomaton⟩ := hRules.automaton
  obtain ⟨-, hAccepts⟩ := actionOn_eq_some hAction
  have hSymbols := hProductive.linked.accepts hBuilt hAutomaton hAccepts
  have hStart := hRules.not_isTerminal_start
  rw [hRules.eof_of_accept hAccepts] at hAccepts
  rcases h.stack with hMarred | hOpening
  · exact .inl (hasError_accept hMarred hKeeps hSymbols hStart)
  · exact .inr (rooted_accept hRules hOpening hProductive hKeeps hSymbols hStart hAccepts)

/-! ## Steps -/

/-- After the step the session is as before it, or the root tells of an error or of how the parse began. -/
def OpenedAfter (env : SessionEnv σ) : Progress σ → Prop
  | .running s => s.Opened env s.Waits
  | .finished root status _ => status = .complete → root.hasError = true ∨ root.Rooted env.language

/-- A reduction keeps the opening or the error. The lookahead is at hand or waits. -/
theorem Opened.reduce (h : s.Opened env W) (id : ProductionId) (extent : Nat) (hla : W la) :
    (s.reduce env id extent).stack.Marred env.language ∨ (s.reduce env id extent).stack.Opening env.language W := by
  obtain ⟨top, children, below, hStack, hTop, -, hReduce⟩ := reduce_eq env s id extent
  have hBefore := h.stack
  rw [hStack] at hBefore
  rw [hReduce]
  dsimp only
  rcases hBefore with hMarred | hOpening
  · exact .inl (hMarred.reduce rfl fun x hx hError => hasError_of_mem hx hError)
  · refine .inr (hOpening.reduce hTop rfl rfl rfl ?_ ?_ hla)
    · rintro rfl
      exact ⟨rfl, rfl⟩
    · intro x hx
      obtain ⟨rest, hRow⟩ := List.head?_eq_some_iff.mp hx
      rw [hRow]
      rfl

/-- Something is pushed for a lookahead, or nothing is left of the stack but an error. -/
theorem Opened.restack (h : s.Opened env fun x => x = la ∨ s.Waits x) (hReuse : t.reuse = none)
    (hWaits : ∀ x, t.Waits x → x = la ∨ s.Waits x) (hDeferred : t.deferred = s.deferred)
    (hStack : t.stack.Marred env.language ∨ t.stack.Opening env.language t.Waits) : t.Opened env t.Waits where
  reuse := hReuse
  fresh x hx := h.fresh x (hWaits x hx)
  deferred symbol := hDeferred ▸ h.deferred symbol
  missing symbol hMissing := hDeferred ▸ h.missing symbol (hWaits _ hMissing)
  stack := hStack

theorem Stands.opened (hRules : env.language.FromRules g w) (h : s.Opened env fun x => x = la ∨ s.Waits x) {leaf : Subtree}
    {nextId : NodeId} (hStands : Stands env s la leaf nextId) {next : StateId}
    (hAction : env.language.table.action s.state la.symbol = some (.shift next)) :
    (s.stack.push next leaf).Marred env.language ∨ (s.stack.push next leaf).Opening env.language s.Waits := by
  have hTerminal := hRules.isTerminal_of_action hAction
  cases hStands with
  | shared leaf => exact absurd rfl (h.fresh _ (.inl rfl) leaf)
  | missing symbol => exact .inl (ParseStack.marred_push rfl (.inr (.inr hTerminal)))
  | token token =>
    rcases h.stack with hMarred | hOpening
    · exact .inl (hMarred.of_mem fun x hx => by simp [hx])
    · refine .inr (hOpening.shift ?_ (.inr hTerminal) rfl ?_)
      · exact hRules.structural_of_leads all_instance_token (.inl hAction)
      · intro hNil
        rw [hNil] at hOpening
        exact hOpening.begins (.inl rfl)

theorem Acts.opened (hRules : env.language.FromRules g w) (h : s.Opened env fun x => x = la ∨ s.Waits x)
    (hProductive : s.Productive env w) (hKeeps : s.Keeps Headed) {id : Option ProductionId} {p : Progress σ}
    (hActs : Acts env (fun _ => True) s la id p) : OpenedAfter env p := by
  have hRest (x : Lookahead) (hx : s.Waits x) : x = la ∨ s.Waits x := .inr hx
  cases hActs with
  | interior => exact absurd rfl (h.fresh _ (.inl rfl) _)
  | shift _ hAction hLeaves =>
    obtain ⟨-, hShift⟩ := actionOn_eq_some hAction
    cases hLeaves with
    | restated leaf => exact absurd rfl (h.fresh _ (.inl rfl) leaf)
    | stands hStands => exact h.restack h.reuse hRest rfl (hStands.opened hRules h hShift)
  | @reduce _ production =>
    obtain ⟨top, children, below, -, -, -, hReduce⟩ := reduce_eq env s production (la.extent s.position)
    have hReuse : (s.reduce env production (la.extent s.position)).reuse = none := by
      rw [hReduce]
      exact h.reuse
    have hDeferred : (s.reduce env production (la.extent s.position)).deferred = s.deferred := by rw [hReduce]
    have hOld (x : Lookahead)
        (hx : Waits { s.reduce env production (la.extent s.position) with pending := some la } x) : x = la ∨ s.Waits x := by
      rcases hx with hx | hx
      · exact .inl (Option.some.inj hx).symm
      · exact .inr (.inr (hDeferred ▸ hx))
    refine h.restack hReuse hOld hDeferred ?_
    refine (h.reduce production (la.extent s.position) (.inl rfl)).imp_right fun hOpening => ?_
    exact hOpening.congr (fun token => hOld (.token token)) fun _ => ⟨la, .inl rfl⟩
  | accept _ hAction => exact fun _ => h.accept hRules hProductive hKeeps hAction
  | @extra _ leaf _ _ _ hStands hExtra =>
    refine h.restack h.reuse hRest rfl ?_
    cases hStands with
    | shared => exact absurd rfl (h.fresh _ (.inl rfl) leaf)
    | missing symbol => cases hExtra
    | token token =>
      rcases h.stack with hMarred | hOpening
      · refine .inl (hMarred.of_mem fun x hx => ?_)
        rw [ParseStack.pushExtra, ParseStack.subtrees_push]
        exact List.mem_append_left _ hx
      · exact .inr (hOpening.pushExtra hExtra fun hModes => hModes token (.inl rfl))
  | @dropped symbol =>
    refine h.restack h.reuse hRest rfl (h.stack.imp_right fun hOpening => ?_)
    refine hOpening.congr (fun token => hRest (.token token)) fun _ => ?_
    obtain ⟨other, hDeferred⟩ := Option.isSome_iff_exists.mp (h.missing symbol (.inl rfl))
    exact ⟨other, .inr hDeferred⟩
  | @insert _ _ symbol _ hMissing hAsks =>
    cases hAsks with
    | @mk lex stats =>
      have hOld (x : Lookahead) (hx : some (Lookahead.missing symbol) = some x ∨ some la = some x) :
          x = .missing symbol ∨ x = la :=
        hx.imp (fun h => (Option.some.inj h).symm) fun h => (Option.some.inj h).symm
      refine ⟨h.reuse, fun x hx => ?_, ?_, fun _ _ => rfl, ?_⟩
      · rcases hOld x hx with rfl | rfl
        · simp
        · exact h.fresh _ (.inl rfl)
      · rintro symbol' hDeferred
        obtain rfl := Option.some.inj hDeferred
        cases hMissing
      · refine h.stack.imp_right fun hOpening => hOpening.congr (fun token hx => ?_) fun _ => ⟨la, .inr rfl⟩
        exact .inl ((hOld _ hx).resolve_left (by simp))
  | @pop _ _ depth _ _ hAsks =>
    cases hAsks with
    | @mk lex stats =>
      obtain ⟨top, below, -, -, hPop⟩ :=
        popStack_eq env { s with lex, stats, recoveries := some (s.position, s.attempts) } depth
      rw [hPop]
      refine h.restack h.reuse (fun x hx => ?_) rfl (.inl (ParseStack.marred_push rfl (.inl rfl)))
      exact hx.imp (fun hx => (Option.some.inj hx).symm) .inr
  | skipError hAsks =>
    cases hAsks
    exact h.restack h.reuse hRest rfl (.inl (ParseStack.marred_push rfl (.inl rfl)))
  | @skip _ leaf nextId _ _ _ hAsks =>
    cases hAsks with
    | @mk lex stats =>
      obtain ⟨top, below, children, -, -, hSkip⟩ :=
        skipLeaf_eq env { s with lex, stats, nextId, recoveries := some (s.position, s.attempts) } leaf
      rw [hSkip]
      exact h.restack h.reuse hRest rfl (.inl (ParseStack.marred_push rfl (.inl rfl)))
  | wrap hAsks =>
    cases hAsks
    exact h.restack h.reuse hRest rfl (.inl (ParseStack.marred_push rfl (.inl rfl)))
  | giveUp => exact fun _ => .inl rfl

theorem Opened.next (hRules : env.language.FromRules g w) (h : s.Opened env s.Waits) (hProductive : s.Productive env w)
    (hKeeps : s.Keeps Headed) : OpenedAfter env (s.next env) := by
  have hStarts : Opened env (Waits { s with steps := s.steps + 1 }) { s with steps := s.steps + 1 } :=
    ⟨h.reuse, h.fresh, h.deferred, h.missing, h.stack⟩
  have hStartsProductive : Productive env w { s with steps := s.steps + 1 } :=
    ⟨hProductive.linked, hProductive.nodes, hProductive.skip, hProductive.reuse, hProductive.pending, hProductive.deferred⟩
  have hStartsKeeps : Keeps Headed { s with steps := s.steps + 1 } :=
    ⟨hKeeps.stack, hKeeps.skip, hKeeps.reuse, hKeeps.pending, hKeeps.deferred⟩
  have hSteps := steps_next env.keeps_true s
  generalize s.reduction? env = id, s.next env = p at hSteps
  cases hSteps with
  | stopped => rintro ⟨⟩
  | reduced hTakes =>
    cases hTakes with
    | reduced _ _ hReuse => exact absurd (h.reuse.symm.trans hReuse) (by simp)
  | acted hTakes hActs =>
    exact hActs.opened hRules (hTakes.opened hStarts) (hTakes.productive hRules hStartsProductive).1
      (hTakes.keeps lasting_headed hStartsKeeps).1

/-- A root without errors is a node of the first state that begins as the parse did. -/
theorem rooted_of_run (hRules : env.language.FromRules g w) {marks : LexMarks} {input : σ} {limit : Nat} {root : Subtree}
    (hRun : run env limit (start marks input none env.firstId) = some (root, .complete, t)) :
    root.hasError = true ∨ root.Rooted env.language := by
  obtain ⟨last, hReaches, hLast⟩ := reaches_of_run hRun
  have hInvariant : last.Productive env w ∧ last.Keeps Headed ∧ last.Opened env last.Waits := by
    refine hReaches.invariant (I := fun s => s.Productive env w ∧ s.Keeps Headed ∧ s.Opened env s.Waits) ?_ ?_
    · exact ⟨productive_start (by simp), keeps_start (by simp), opened_start⟩
    · rintro s t ⟨hProductive, hKeeps, hOpened⟩ hNext
      have hProductive' := (hProductive.next hRules).1
      have hKeeps' : KeepsAfter Headed (s.next env) := hKeeps.next lasting_headed
      have hOpened' := hOpened.next hRules hProductive hKeeps
      rw [hNext] at hProductive' hKeeps' hOpened'
      exact ⟨hProductive', hKeeps', hOpened'⟩
  obtain ⟨hProductive, hKeeps, hOpened⟩ := hInvariant
  have hAfter := hOpened.next hRules hProductive hKeeps
  rw [hLast] at hAfter
  exact hAfter rfl

end Session
end Reparse
