import Reparse.Proofs.Blob.Framing
import Reparse.Proofs.Lex.Searching
import Reparse.Proofs.Parse.Steps
/-!
# Languages that were loaded

Whatever bytes a language was loaded from, lexing, trials of recoveries and sessions refer only to what its table
has. Nothing is assumed of the table but that it passed the check: it need not belong to any grammar.
-/
namespace Reparse

variable {σ : Type}

/-! ## Tokens -/

namespace Language

variable {l : Language} {tokens : List Symbol}

/-- The tokens are searched for together. -/
def Seeks (l : Language) (tokens : List Symbol) : Prop :=
  tokens = l.keywords ∨ tokens = l.errorMode.tokens ∨ ∃ id, tokens = (l.lexMode id).tokens

theorem derived_of_load {handle : Nat} {data : List UInt8} (h : load handle data = .ok l) : l.Derived := by
  rw [load] at h
  cases hDecode : Blob.decode data with
  | error e => rw [hDecode] at h; cases h
  | ok r =>
    rw [hDecode] at h
    cases h
    exact ⟨Table.valid_of_validate (Blob.decode_eq_ok.mp hDecode).2, rfl, rfl, rfl⟩

namespace Derived

variable (h : l.Derived)
include h

theorem seeks_terminal (hSeeks : l.Seeks tokens) {s : Symbol} (hs : s ∈ tokens) : l.table.isTerminal s = true := by
  have hError {s : Symbol} (hs : s ∈ l.errorMode.tokens) : l.table.isTerminal s = true := by
    rw [h.errorMode, Table.errorMode] at hs
    rcases Table.mem_withoutKeywords hs with ⟨hs, _⟩ | hWord
    · exact Table.mem_terminals.mp (List.mem_filter.mp hs).1
    · exact (h.valid.word_pattern hWord).1
  rcases hSeeks with rfl | rfl | ⟨id, rfl⟩
  · rw [h.keywords, Table.keywords] at hs
    exact Table.mem_terminals.mp (List.mem_filter.mp hs).1
  · exact hError hs
  · exact hError (h.lexMode_subset id hs)

theorem matchFrom_terminal {src : Source σ} (pos furthest : Nat) {best : Option (Nat × Symbol)} (set : Array UInt32)
    (s : LexState σ) (hBest : ∀ c, best = some c → l.table.isTerminal c.2 = true) {c : Nat × Symbol}
    (hFound : (matchFrom l.table src pos furthest best set s).1.1 = some c) : l.table.isTerminal c.2 = true := by
  generalize hLeft : src.size - pos = left
  induction left using Nat.strongRecOn generalizing pos furthest best set s with
  | ind left ih =>
    cases hConsuming : set.any l.table.lexNodes.isConsuming with
    | false =>
      rw [(matchFrom_done l.table src hConsuming).1] at hFound
      exact hBest c hFound
    | true =>
      rcases hChar : src.charAt pos s.input with ⟨_ | d, input⟩
      · rw [(matchFrom_end l.table src hConsuming hChar).1] at hFound
        exact hBest c hFound
      · have hPos := Source.lt_size_of_charAt (congrArg Prod.fst hChar)
        have hWidth := d.width_pos
        rw [(matchFrom_step l.table src hConsuming hChar rfl).1] at hFound
        refine ih (src.size - (pos + d.width)) (by omega) _ _ _ _ ?_ hFound rfl
        intro c hc
        rcases Table.foldl_better_cases hc with hc | ⟨_, hMem⟩
        · exact hBest c hc
        · obtain ⟨n, _, hAccepted⟩ := List.mem_filterMap.mp hMem
          exact h.valid.accepted_terminal hAccepted

theorem longestMatch_terminal {src : Source σ} {pos : Nat} {s s' : LexState σ} {found : Found}
    (hFound : longestMatch l.table src pos tokens s = (some found, s')) : l.table.isTerminal found.symbol = true := by
  rw [(longestMatch_step l.table src rfl).1] at hFound
  obtain ⟨c, hc, rfl⟩ := Option.map_eq_some_iff.mp (congrArg Prod.fst hFound)
  refine h.matchFrom_terminal pos pos _ _ ?_ hc
  intro c hNone
  cases hNone

theorem lexInternal_terminal {src : Source σ} {pos : Nat} {mode : LexMode} {id : LexModeId} {s s' : LexState σ}
    {token : Token} (hToken : l.lexInternal src pos mode id s = (some token, s')) :
    l.table.isTerminal token.symbol = true := by
  rw [lexInternal] at hToken
  split at hToken
  next found t hMatch =>
    have hFound := h.longestMatch_terminal hMatch
    obtain ⟨hSymbol, _⟩ := Prod.mk.inj hToken
    obtain rfl := Option.some.inj hSymbol
    change l.table.isTerminal (l.keywordFor src pos found t).1.symbol = true
    rw [keywordFor]
    split
    · split
      next keyword t' hKeyword =>
        have hResolved := h.longestMatch_terminal hKeyword
        split
        · exact hResolved
        · exact hFound
      next => exact hFound
    · exact hFound
  next => cases hToken

theorem isTerminal_eof : l.table.isTerminal .eof = true := Table.isTerminal_iff.mpr h.valid.tokens_pos

theorem lexAutomata_terminal (src : Source σ) (pos : Nat) (id : LexModeId) (s : LexState σ) :
    l.isTerminal (l.lexAutomata src pos id s).1.symbol = true := by
  have hTable {s : Symbol} (hs : l.table.isTerminal s = true) : l.isTerminal s = true := by
    rw [isTerminal, hs, Bool.or_true]
  rw [lexAutomata]
  split
  · exact hTable h.isTerminal_eof
  · split
    next token t hToken => exact hTable (h.lexInternal_terminal hToken)
    next =>
      split
      · rfl
      · split
        next token t hToken => exact hTable (h.lexInternal_terminal hToken)
        next => rfl

theorem lexExternal_terminal {scanner : ExternalScanner} {src : Source σ} {pos : Nat} {id : LexModeId}
    {state : Option (List UInt8)} {left : ScanMemory} {s : σ} {token : Token}
    (hToken : (l.lexExternal scanner src pos id state left s).1.1 = some token) :
    l.table.isTerminal token.symbol = true := by
  simp only [lexExternal, Option.bind_eq_bind, Option.bind_eq_some_iff] at hToken
  obtain ⟨scanned, _, symbol, hSymbol, hToken⟩ := hToken
  split at hToken
  · obtain rfl := Option.some.inj hToken
    exact (h.valid.extra_terminal (.inr (List.mem_of_getElem? hSymbol))).1
  · cases hToken

theorem lexWith_terminal (scanner : Option ExternalScanner) (src : Source σ) (pos : Nat) (id : LexModeId)
    (state : Option (List UInt8)) (s : LexSession σ) :
    l.isTerminal (l.lexWith scanner src pos id state s).1.symbol = true := by
  cases scanner with
  | none => exact h.lexAutomata_terminal src pos id s.toLexState
  | some scanner =>
    rw [lexWith]
    split
    · split
      next token memory input hToken =>
        rw [isTerminal, h.lexExternal_terminal (congrArg (Prod.fst ∘ Prod.fst) hToken), Bool.or_true]
      next => exact h.lexAutomata_terminal src pos id _
    · exact h.lexAutomata_terminal src pos id s.toLexState

theorem length_externals (id : LexModeId) : (l.lexMode id).externals.length = l.table.externals.length := by
  rw [lexMode]
  cases hMode : l.modes[id.toNat]? with
  | none =>
    rw [Option.getD_none, h.errorMode]
    exact List.length_map _
  | some mode =>
    obtain ⟨state, rfl⟩ := h.mem_modes hMode
    simp [Table.lexModeOf]

end Derived
end Language

/-! ## Trials -/

/-- A trial of a recovery under way: the steps that are left, the states, and the symbols still to be shifted. -/
structure Trial where
  steps : Nat
  states : List StateId
  symbols : List Symbol

namespace Trial

open RecoveryContext

variable {t : Table}

def InTable (t : Table) (a : Trial) : Prop := ∀ q ∈ a.states, q < t.stateCount

/-- The state that the table is asked about. -/
def state (a : Trial) : StateId := a.states.headD 0

inductive Step (t : Table) : Trial → Trial → Prop
  | shift {steps : Nat} {states : List StateId} {s : Symbol} {rest : List Symbol} {next : StateId} :
    t.action (states.headD 0) s = some (.shift next) → Step t ⟨steps + 1, states, s :: rest⟩ ⟨steps, next :: states, rest⟩
  | reduce {steps : Nat} {states : List StateId} {s : Symbol} {rest : List Symbol} {id : ProductionId} {next : StateId} :
    t.action (states.headD 0) s = some (.reduce id) →
    t.goto ((popStates states (t.production id).childCount.toNat).headD 0) (t.production id).lhs = some next →
    Step t ⟨steps + 1, states, s :: rest⟩
      ⟨steps, next :: popStates states (t.production id).childCount.toNat, s :: rest⟩

/-- These are the steps that `tryShift` takes. -/
theorem Step.tryShift_eq {a b : Trial} (h : Step t a b) :
    tryShift t a.steps a.states a.symbols = tryShift t b.steps b.states b.symbols := by
  cases h with
  | shift hAction => rw [tryShift, hAction]
  | reduce hAction hGoto => rw [tryShift, hAction]; simp only [hGoto]

theorem state_lt {a : Trial} (h : t.Valid) (ha : a.InTable t) : a.state < t.stateCount := by
  rw [state]
  cases hStates : a.states with
  | nil => exact h.zero_lt
  | cons q rest =>
    rw [InTable, hStates] at ha
    exact ha q List.mem_cons_self

theorem Step.inTable {a b : Trial} (h : t.Valid) (hStep : Step t a b) (ha : a.InTable t) : b.InTable t := by
  cases hStep with
  | shift hAction => exact List.forall_mem_cons.mpr ⟨h.shift_lt hAction, ha⟩
  | reduce hAction hGoto =>
    exact List.forall_mem_cons.mpr ⟨h.goto_lt hGoto, fun q hq => ha q (List.mem_of_mem_drop hq)⟩

theorem inTable_of_steps {a b : Trial} (h : t.Valid) (hSteps : Relation.ReflTransGen (Step t) a b) (ha : a.InTable t) :
    b.InTable t := by
  induction hSteps with
  | refl => exact ha
  | tail _ hStep ih => exact hStep.inTable h ih

end Trial

/-! ## Sessions -/

namespace ParseStack

variable {t : Table} {s : ParseStack}

def InTable (t : Table) (s : ParseStack) : Prop := ∀ entry ∈ s, entry.state < t.stateCount

theorem InTable.state_lt (h : t.Valid) (hs : s.InTable t) : s.state < t.stateCount := by
  cases s with
  | nil => exact h.zero_lt
  | cons entry rest => exact hs entry List.mem_cons_self

theorem InTable.push (hs : s.InTable t) {q : StateId} (hState : q < t.stateCount) (subtree : Subtree) :
    (s.push q subtree).InTable t := List.forall_mem_cons.mpr ⟨hState, hs⟩

theorem InTable.pushExtra (h : t.Valid) (hs : s.InTable t) (subtree : Subtree) : (s.pushExtra subtree).InTable t :=
  hs.push (hs.state_lt h) subtree

theorem InTable.pushExtras (h : t.Valid) (hs : s.InTable t) (extras : List Subtree) : (s.pushExtras extras).InTable t := by
  induction extras generalizing s with
  | nil => exact hs
  | cons extra _ ih => exact ih (hs.pushExtra h extra)

theorem InTable.of_append {top : List StackEntry} (hs : InTable t (top ++ s)) : s.InTable t :=
  fun entry hEntry => hs entry (List.mem_append_right top hEntry)

theorem InTable.goto_lt (h : t.Valid) (hs : s.InTable t) (symbol : Symbol) :
    (t.goto s.state symbol).getD s.state < t.stateCount := by
  cases hGoto : t.goto s.state symbol with
  | none => exact hs.state_lt h
  | some next => exact h.goto_lt hGoto

theorem InTable.structuralStates (h : t.Valid) (hs : s.InTable t) : ∀ q ∈ s.structuralStates, q < t.stateCount := by
  intro q hq
  rcases List.mem_append.mp hq with hq | hq
  · obtain ⟨entry, hEntry, rfl⟩ := List.mem_map.mp hq
    exact hs entry (List.mem_filter.mp hEntry).1
  · rw [List.mem_singleton.mp hq]
    exact h.zero_lt

end ParseStack

def Lookahead.InTable (l : Language) : Lookahead → Prop
  | .token t => l.isTerminal t.symbol = true
  | .missing s => l.isTerminal s = true
  | .reused _ => True

namespace Session

variable {env : SessionEnv σ} {s t : Session σ}

/-- The states on the stack are in the table, and the tokens that wait are terminals or errors. -/
structure InTable (l : Language) (s : Session σ) : Prop where
  stack : s.stack.InTable l.table
  pending : ∀ la, s.pending = some la → la.InTable l
  deferred : ∀ la, s.deferred = some la → la.InTable l

theorem reduce_inTable (h : env.language.Derived) (hs : s.stack.InTable env.language.table) (id : ProductionId)
    (extent : Nat) : (s.reduce env id extent).stack.InTable env.language.table := by
  obtain ⟨top, children, below, hStack, -, -, hReduce⟩ := reduce_eq env s id extent
  rw [hStack] at hs
  have hBelow : ParseStack.InTable env.language.table below := hs.of_append.of_append
  rw [hReduce]
  exact (hBelow.push (hBelow.goto_lt h.valid _) _).pushExtras h.valid _

theorem skipLeaf_inTable (h : env.language.Derived) (hs : s.stack.InTable env.language.table) (leaf : Subtree) :
    (s.skipLeaf env leaf).stack.InTable env.language.table := by
  obtain ⟨top, below, children, hStack, -, hSkip⟩ := skipLeaf_eq env s leaf
  rw [hStack] at hs
  rw [hSkip]
  exact hs.of_append.pushExtra h.valid _

theorem Finds.reduce_lt (h : env.language.Derived) {stack : ParseStack} {c c' : ReuseCursor} {id : ProductionId}
    {extent : Nat} (hFinds : Finds env.language stack c (.reduce id extent, c')) :
    id.toNat < env.language.table.productions.size := by
  cases hFinds with
  | reduce _ _ hAction => exact h.valid.reduce_lt hAction

theorem Takes.inTable (h : env.language.Derived) {la : Option Lookahead} {id : Option ProductionId}
    (hTakes : Takes env s la id t) (hs : s.InTable env.language) : t.InTable env.language ∧
      (∀ a, la = some a → a.InTable env.language) ∧ ∀ p, id = some p → p.toNat < env.language.table.productions.size := by
  have hNone (a : Lookahead) (ha : none = some a) : a.InTable env.language := by cases ha
  have hNoId (p : ProductionId) (hp : none = some p) : p.toNat < env.language.table.productions.size := by cases hp
  cases hTakes with
  | pending hPending =>
    refine ⟨⟨hs.stack, hNone, hs.deferred⟩, ?_, hNoId⟩
    rintro a ⟨⟩
    exact hs.pending _ hPending
  | deferred _ hDeferred =>
    refine ⟨⟨hs.stack, hs.pending, hNone⟩, ?_, hNoId⟩
    rintro a ⟨⟩
    exact hs.deferred _ hDeferred
  | reused =>
    refine ⟨⟨hs.stack, hs.pending, hs.deferred⟩, ?_, hNoId⟩
    rintro a ⟨⟩
    trivial
  | reduced _ _ _ hFinds =>
    refine ⟨⟨reduce_inTable h hs.stack _ _, hs.pending, hs.deferred⟩, hNone, ?_⟩
    rintro p ⟨⟩
    exact hFinds.reduce_lt h
  | lexed _ _ _ hLex =>
    refine ⟨⟨hs.stack, hs.pending, hs.deferred⟩, ?_, hNoId⟩
    rintro a ⟨⟩
    have hTerminal := h.lexWith_terminal env.language.scanner env.host.source s.position (env.language.lexModeId s.state)
      s.stack.scannerState s.lex
    rwa [hLex] at hTerminal

theorem Acts.inTable (h : env.language.Derived) {la : Lookahead} {id : Option ProductionId} {p : Progress σ}
    (hActs : Acts env (fun _ => True) s la id p) (hs : s.InTable env.language) (hla : la.InTable env.language) :
    (∀ t, p = .running t → t.InTable env.language) ∧ ∀ q, id = some q → q.toNat < env.language.table.productions.size := by
  have hNoId (q : ProductionId) (hq : none = some q) : q.toNat < env.language.table.productions.size := by cases hq
  cases hActs with
  | interior =>
    refine ⟨?_, hNoId⟩
    rintro t ⟨⟩
    exact ⟨hs.stack.push (hs.stack.goto_lt h.valid _) _, hs.pending, hs.deferred⟩
  | shift _ hAction =>
    refine ⟨?_, hNoId⟩
    rintro t ⟨⟩
    rw [actionOn] at hAction
    split at hAction
    · cases hAction
    · exact ⟨hs.stack.push (h.valid.shift_lt hAction) _, hs.pending, hs.deferred⟩
  | reduce _ hAction =>
    rw [actionOn] at hAction
    split at hAction
    · cases hAction
    · constructor
      · rintro t ⟨⟩
        refine ⟨reduce_inTable h hs.stack _ _, ?_, hs.deferred⟩
        rintro a ⟨⟩
        exact hla
      · rintro q ⟨⟩
        exact h.valid.reduce_lt hAction
  | accept =>
    refine ⟨?_, hNoId⟩
    rintro t ⟨⟩
  | extra =>
    refine ⟨?_, hNoId⟩
    rintro t ⟨⟩
    exact ⟨hs.stack.pushExtra h.valid _, hs.pending, hs.deferred⟩
  | dropped =>
    refine ⟨?_, hNoId⟩
    rintro t ⟨⟩
    exact hs
  | insert _ _ hAsks _ hToken =>
    refine ⟨?_, hNoId⟩
    rintro t ⟨⟩
    cases hAsks
    refine ⟨hs.stack, ?_, ?_⟩
    · rintro a ⟨⟩
      exact Language.isTerminal_of_isToken hToken
    · rintro a ⟨⟩
      exact hla
  | @pop _ r depth _ _ hAsks =>
    refine ⟨?_, hNoId⟩
    rintro t ⟨⟩
    cases hAsks
    obtain ⟨top, hTop, -⟩ := s.stack.popStructural_eq depth
    have hStack := hs.stack
    rw [hTop] at hStack
    refine ⟨hStack.of_append.pushExtra h.valid _, ?_, hs.deferred⟩
    rintro a ⟨⟩
    exact hla
  | skipError hAsks =>
    refine ⟨?_, hNoId⟩
    rintro t ⟨⟩
    cases hAsks
    exact ⟨hs.stack.pushExtra h.valid _, hs.pending, hs.deferred⟩
  | @skip _ leaf nextId r _ _ hAsks =>
    refine ⟨?_, hNoId⟩
    rintro t ⟨⟩
    cases hAsks
    refine ⟨skipLeaf_inTable h ?_ leaf, hs.pending, hs.deferred⟩
    exact hs.stack
  | wrap hAsks =>
    refine ⟨?_, hNoId⟩
    rintro t ⟨⟩
    cases hAsks
    exact ⟨ParseStack.InTable.push (List.forall_mem_nil _) h.valid.zero_lt _, hs.pending, hs.deferred⟩
  | giveUp =>
    refine ⟨?_, hNoId⟩
    rintro t ⟨⟩

theorem Steps.inTable (h : env.language.Derived) {id : Option ProductionId} {p : Progress σ}
    (hSteps : Steps env (fun _ => True) s id p) (hs : s.InTable env.language) :
    (∀ t, p = .running t → t.InTable env.language) ∧ ∀ q, id = some q → q.toNat < env.language.table.productions.size := by
  have hStarts : InTable env.language { s with steps := s.steps + 1 } := ⟨hs.stack, hs.pending, hs.deferred⟩
  cases hSteps with
  | stopped =>
    constructor
    · rintro t ⟨⟩
    · rintro q ⟨⟩
  | reduced hTakes =>
    obtain ⟨ht, -, hId⟩ := hTakes.inTable h hStarts
    refine ⟨?_, hId⟩
    rintro t ⟨⟩
    exact ht
  | acted hTakes hActs =>
    obtain ⟨ht, hla, -⟩ := hTakes.inTable h hStarts
    exact hActs.inTable h ht (hla _ rfl)

theorem inTable_of_reaches (h : env.language.Derived) (hReaches : Reaches env s t) (hs : s.InTable env.language) :
    t.InTable env.language :=
  hReaches.invariant hs fun _ _ hs hNext =>
    ((steps_next env.keeps_true _).inTable h hs).1 _ hNext

end Session

/-! ## The whole language -/

/-- Whatever is looked up by the lexer, in trials of recoveries and in sessions of the language is in its table. -/
structure Language.InTable (l : Language) : Prop where
  /-- Entries of actions, of gotos and of automata. -/
  rows : ∀ q s, q < l.table.stateCount →
    (l.table.isTerminal s = true → q.toNat * l.table.tokenCount.toNat + s.index < l.table.actions.size ∧
      s.index < l.table.tokenLex.size) ∧
    (l.table.isNonterminal s = true →
      q.toNat * l.table.nonterminalCount + (s.index - l.table.tokenCount.toNat) < l.table.gotos.size)
  /-- Tokens are terminals or errors. -/
  tokens : ∀ {σ : Type} (scanner : Option ExternalScanner) (src : Source σ) (pos : Nat) (id : LexModeId)
    (state : Option (List UInt8)) (s : LexSession σ),
    l.isTerminal (l.lexWith scanner src pos id state s).1.symbol = true
  /-- An index that a mode lets a scanner answer with is that of an external token. -/
  externals : ∀ (id : LexModeId) (index : Nat), ((l.lexMode id).externals[index]?).getD false = true →
    index < l.table.externals.length
  /-- Searches for the longest match begin with terminals, and look at nodes of the table. -/
  searches : ∀ {σ : Type} (src : Source σ) (pos : Nat) (tokens : List Symbol) (s : LexState σ), l.Seeks tokens →
    (∀ token ∈ tokens, l.table.isTerminal token = true) ∧ ∀ r, LexSearch.Steps l.table src (.start l.table pos tokens s) r →
      (∀ n ∈ r.nodes, n.toNat < l.table.lexNodes.size) ∧
        ∀ n ∈ r.nodes, ∀ symbol, l.table.lexNodes.accepted? n = some symbol → l.table.isTerminal symbol = true
  /-- A trial on states of the table comes to states of the table, and reduces by productions of the table. -/
  trials : ∀ a b : Trial, (∀ q ∈ a.states, q < l.table.stateCount) → Relation.ReflTransGen (Trial.Step l.table) a b →
    (∀ q ∈ b.states, q < l.table.stateCount) ∧ b.state < l.table.stateCount ∧
      ∀ s id, l.table.action b.state s = some (.reduce id) → id.toNat < l.table.productions.size
  /-- A session comes to states of the table, and reduces by productions of the table. -/
  sessions : ∀ {σ : Type} (env : SessionEnv σ), env.language = l → ∀ (marks : LexMarks) (input : σ) (old : Option Tree)
    (firstId : NodeId) (s : Session σ), Session.Reaches env (.start marks input old firstId) s →
      (∀ entry ∈ s.stack, entry.state < l.table.stateCount) ∧ s.state < l.table.stateCount ∧
        (∀ q ∈ s.stack.structuralStates, q < l.table.stateCount) ∧
        (∀ id, s.reduction? env = some id → id.toNat < l.table.productions.size) ∧
          ∀ la, s.pending = some la ∨ s.deferred = some la → la.InTable l

theorem Language.Derived.inTable {l : Language} (h : l.Derived) : l.InTable where
  rows q s hState := ⟨fun hTerminal => ⟨h.valid.actions_row_lt hState hTerminal, h.valid.tokenLex_lt hTerminal⟩,
    fun hNonterminal => h.valid.gotos_row_lt hState hNonterminal⟩
  tokens := h.lexWith_terminal
  externals id index hIndex := by
    rw [← h.length_externals id]
    by_contra hBeyond
    rw [List.getElem?_eq_none (Nat.not_lt.mp hBeyond)] at hIndex
    cases hIndex
  searches src pos tokens s hSeeks := by
    refine ⟨fun token hToken => h.seeks_terminal hSeeks hToken, ?_⟩
    intro r hSteps
    exact ⟨hSteps.inTable h.valid (LexSearch.inTable_start h.valid pos tokens s),
      fun n _ symbol hAccepted => h.valid.accepted_terminal hAccepted⟩
  trials a b ha hSteps := by
    have hb := Trial.inTable_of_steps h.valid hSteps ha
    exact ⟨hb, Trial.state_lt h.valid hb, fun s id hAction => h.valid.reduce_lt hAction⟩
  sessions env hLanguage marks input old firstId s hReaches := by
    subst hLanguage
    have hStart : Session.InTable env.language (.start marks input old firstId) :=
      ⟨List.forall_mem_nil _, fun la hla => (by cases hla), fun la hla => (by cases hla)⟩
    have hs := Session.inTable_of_reaches h hReaches hStart
    refine ⟨hs.stack, hs.stack.state_lt h.valid, hs.stack.structuralStates h.valid, ?_, ?_⟩
    · exact ((Session.steps_next env.keeps_true s).inTable h hs).2
    · intro la hla
      exact hla.elim (hs.pending la) (hs.deferred la)

/-- Bytes that load cannot send the runtime out of its tables, whatever scanner the language is given. -/
theorem load_inTable {handle : Nat} {data : List UInt8} {l : Language} (h : Language.load handle data = .ok l)
    (scanner : Option ExternalScanner) : ({ l with scanner } : Language).InTable := by
  have hDerived := Language.derived_of_load h
  exact Language.Derived.inTable ⟨hDerived.valid, hDerived.modes, hDerived.errorMode, hDerived.keywords⟩

theorem load_greeting_inTable :
    Language.load 0 (Blob.encode .greeting) = .ok (.ofValid 0 .greeting Blob.formatVersion) ∧
      ({ Language.ofValid 0 .greeting Blob.formatVersion with scanner := none } : Language).InTable := by
  have hLoad : Language.load 0 (Blob.encode .greeting) = .ok (.ofValid 0 .greeting Blob.formatVersion) := by
    rw [Language.load, Blob.decode_greeting]
    rfl
  exact ⟨hLoad, load_inTable hLoad none⟩

end Reparse
