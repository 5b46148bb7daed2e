import Reparse.Proofs.Parse.Coverage
import Reparse.Proofs.Parse.FromScratch
/-!
# Parsing an unchanged text again

A root without errors that belongs to the first state and begins with a leaf of its lex mode is taken over whole. The
parse then lexes the end of the text, accepts and returns the same subtree. The root of a parse from scratch is of that
kind.
-/
namespace Reparse

open Subtree

variable {σ : Type}

/-- A root that a session takes over whole and accepts. -/
structure Subtree.Settled (l : Language) (root : Subtree) : Prop where
  unchanged : root.hasChanges = false
  clean : root.hasError = false
  sized : 0 < root.size
  nonempty : root.children ≠ []
  structural : root.isExtra = false
  state : root.info.state = 0
  mode : root.info.firstMode = l.lexModeId 0
  accepted : ∃ q, l.table.goto 0 root.symbol = some q ∧ l.table.action q .eof = some .accept

namespace Session

variable {env : SessionEnv σ} {root : Subtree} {tree : Tree}

/-- The root of the old tree is the first candidate, and it is taken. -/
theorem findReuse_settled {l : Language} (h : tree.root.Settled l) (moves : Nat) :
    findReuse l [] (moves + 1) (.ofTree tree) = (.subtree tree.root, (ReuseCursor.ofTree tree).advance) := by
  obtain ⟨q, hGoto, -⟩ := h.accepted
  have hReusable : isReusable l [] (.ofTree tree) tree.root = true := by
    have hMode : l.canRelexAs tree.root.info.firstSymbol tree.root.info.firstMode (l.lexModeId 0) = true := by
      rw [Language.canRelexAs, h.mode, beq_self_eq_true, Bool.true_or]
    have hUnchanged : tree.root.info.hasChanges = false := h.unchanged
    have hClean : tree.root.info.hasError = false := h.clean
    have hSized : 0 < tree.root.info.size := h.sized
    simp [isReusable, hUnchanged, hClean, hSized, ParseStack.state, hMode, ReuseCursor.ofTree, ReuseCursor.bordersError,
      ReuseCursor.before?, ReuseCursor.after?, ParseStack.scannerState, ParseStack.followsError]
  have hCurrent : (ReuseCursor.ofTree tree).current? = some (tree.root, 0) := rfl
  have hPosition : ParseStack.position [] = 0 := rfl
  have hState : ParseStack.state [] = 0 := rfl
  rw [findReuse, hCurrent]
  dsimp only
  rw [hPosition, hState, if_neg (Nat.lt_irrefl 0), if_neg (Nat.lt_irrefl 0), if_pos hReusable, if_pos]
  simp [h.state, hGoto]

/-- The session once the root is taken over. -/
def taken (marks : LexMarks) (input : σ) (tree : Tree) (firstId : NodeId) (q : StateId) : Session σ where
  lex := { marks, input, memory := none }
  reuse := some (ReuseCursor.ofTree tree).advance
  stack := ParseStack.push [] q tree.root
  stats := { subtreesReused := 1 }
  steps := 1
  pending := none
  deferred := none
  recoveries := none
  lastSkip := none
  wrapped := false
  nextId := firstId

theorem shouldStop_eq_false (h : env.options.canStop = false) (s : Session σ) : s.shouldStop env = false := by
  simp [shouldStop, h]

theorem next_start (hOptions : env.options.canStop = false) (h : tree.root.Settled env.language) {q : StateId}
    (hGoto : env.language.table.goto 0 tree.root.symbol = some q) (marks : LexMarks) (input : σ) (firstId : NodeId) :
    (start marks input (some tree) firstId).next env = .running (taken marks input tree firstId q) := by
  have hLeaf : tree.root.isLeaf = false := by simpa [isLeaf] using h.nonempty
  rw [next, shouldStop_eq_false hOptions]
  dsimp only
  rw [if_neg Bool.false_ne_true, nextLookahead]
  simp only [start, Option.map_some, reuseHere, findReuse_settled h]
  simp only [step, hLeaf, Bool.false_eq_true, if_false, taken, state, ParseStack.state, List.head?_nil, Option.map_none,
    Option.getD_none, hGoto, Option.getD_some]

/-- At the end of the text a root that is alone on the stack is accepted. -/
theorem step_end {s : Session σ} {q : StateId} (hStack : s.stack = ParseStack.push [] q root)
    (hAction : env.language.table.action q .eof = some .accept) (hStructural : root.isExtra = false) (pos : Nat)
    (mode : LexModeId) : s.step env (.token (Language.endToken pos mode)) = .finished root .complete s := by
  have hOn : s.actionOn env (.token (Language.endToken pos mode)) = some .accept := by
    rw [actionOn, state, hStack]
    exact hAction
  have hAccept : s.accept env = (root, s) := by simp [accept, hStack, hStructural]
  rw [step, act, hOn]
  · dsimp only
    rw [hAccept]
  · rintro x ⟨⟩

/-- Nothing of the old tree is left there, so the end is lexed. -/
theorem next_taken (hOptions : env.options.canStop = false) (hScanner : env.language.scanner = none)
    (hStructural : tree.root.isExtra = false) {q : StateId} (hAction : env.language.table.action q .eof = some .accept)
    (marks : LexMarks) {input input' : σ} (hEnd : env.host.source.charAt tree.root.size input = (none, input'))
    (firstId : NodeId) :
    ∃ s, (taken marks input tree firstId q).next env = .finished tree.root .complete s ∧ s.nextId = firstId ∧
      s.stats = { tokensLexed := 1, subtreesReused := 1 } := by
  have hDone (moves : Nat) : findReuse env.language (ParseStack.push [] q tree.root) moves (ReuseCursor.ofTree tree).advance =
      (.none, (ReuseCursor.ofTree tree).advance) := by
    cases moves <;> rfl
  have hLex : env.language.lexWith env.language.scanner env.host.source tree.root.size (env.language.lexModeId q)
      (ParseStack.push [] q tree.root).scannerState { marks, input, memory := none } =
        (Language.endToken tree.root.size (env.language.lexModeId q), { marks, input := input', memory := none }) := by
    rw [hScanner, Language.lexWith, Language.lexUnscanned, Language.lexAutomata, hEnd]
  have hPosition : ParseStack.position (ParseStack.push [] q tree.root) = tree.root.size := Nat.zero_add _
  rw [next, shouldStop_eq_false hOptions]
  dsimp only
  rw [if_neg Bool.false_ne_true, nextLookahead]
  simp only [taken, reuseHere, hDone, lexAt, position, state, hPosition, ParseStack.state_push, hLex]
  exact ⟨_, step_end rfl hAction hStructural _ _, rfl, rfl⟩

end Session

/-! ## Parsing again -/

theorem Subtree.balanced_of_not_fresh {b : Balancing} {root : Subtree} (h : b.fresh root.id = false) {id : NodeId} :
    balanced b id root = (root, id) := by
  obtain ⟨info, children⟩ := root
  have hFresh : b.fresh info.id = false := h
  rw [balanced, hFresh, Bool.not_false, Bool.or_true, if_pos rfl]

namespace Subtree.Settled

variable {p : Parser} {tree : Tree}

/-- Parsed over a text of its size, it comes back: the end of the text is lexed, and no node is made. -/
theorem parse_eq (h : tree.root.Settled p.language) (hLanguage : tree.language = p.language)
    (hScanner : p.language.scanner = none) (hOptions : p.options.canStop = false) {host : Host σ} {Ok : σ → Prop}
    {bytes : List UInt8} (hServes : host.source.Serves Ok bytes) {input : σ} (hInput : Ok input)
    (hSize : bytes.length ≤ tree.size) {next : NodeId} (hOld : tree.root.id < next) (limit : Nat) :
    ∃ again, p.parse (limit + 2) host input (some tree) next = some again ∧
      again.tree = ⟨tree.root, p.language, .complete⟩ ∧ again.nextId = next ∧
      again.parser.stats = { tokensLexed := 1, subtreesReused := 1 } := by
  obtain ⟨q, hGoto, hAction⟩ := h.accepted
  have hEnd : (host.source.charAt tree.root.size input).1 = none :=
    (hServes.charAt_eq hInput).1.trans (Source.decodeAt_eq_none.mpr hSize)
  have hKept : (some tree).filter (fun tree => tree.language.sameAs p.language) = some tree := by
    simp [Language.sameAs, hLanguage]
  obtain ⟨s, hLast, hNext, hStats⟩ :
      ∃ s, (Session.taken p.marks input tree next q).next ⟨p.language, host, p.options, next⟩ =
        .finished tree.root .complete s ∧ s.nextId = next ∧ s.stats = { tokensLexed := 1, subtreesReused := 1 } :=
    Session.next_taken hOptions hScanner h.structural hAction p.marks (Prod.ext hEnd rfl) next
  have hRun : Session.run ⟨p.language, host, p.options, next⟩ (limit + 2) (.start p.marks input (some tree) next) =
      some (tree.root, .complete, s) := by
    rw [Session.run, Session.next_start hOptions h hGoto]
    dsimp only
    rw [Session.run, hLast]
  have hBalanced : Parser.finish ⟨p.language, host, p.options, next⟩ tree.root .complete s.nextId = (tree.root, next) := by
    rw [Parser.finish, hNext]
    exact balanced_of_not_fresh (by simpa using hOld)
  rw [Parser.parse, hKept]
  dsimp only
  rw [hRun, Option.map_some, hBalanced]
  exact ⟨_, rfl, rfl, rfl, hStats⟩

end Subtree.Settled
/-! ## Roots of parses from scratch -/

namespace Subtree

variable {b : Balancing} {w : LoweredGrammar} {info : NodeInfo} {children : List Subtree} {root : Subtree}

theorem balancedAll_eq_nil {id : NodeId} (h : (balancedAll b id children).1 = []) : children = [] := by
  cases children with
  | nil => rfl
  | cons c rest =>
    rw [balancedAll] at h
    cases h

/-- A root that is no link keeps its state, and its children if it has none. -/
theorem balanced_of_not_link (h : b.isLink root.info = false) (id : NodeId) :
    (balanced b id root).1.info.state = root.info.state ∧
      ((balanced b id root).1.children = [] → (balanced b id root).1 = root) := by
  obtain ⟨info, children⟩ := root
  rw [info_node] at h
  rw [balanced, h]
  dsimp only
  split
  · exact ⟨rfl, fun _ => rfl⟩
  next hEnters =>
    rw [if_neg Bool.false_ne_true]
    split
    · exact ⟨rfl, fun _ => rfl⟩
    · refine ⟨rfl, fun hNil => absurd ?_ hEnters⟩
      rw [balancedAll_eq_nil hNil]
      rfl

theorem told_of_instance (hRepeats : Repeats b.language.table w) (h : root.All (Instance b.language.table w))
    (hHeaded : root.All Headed) : root.All (Told b) := by
  refine (hHeaded.and h).mono ?_
  rintro info children ⟨hHere, hInstance⟩
  refine ⟨hHere, fun hLink => ?_⟩
  rw [Balancing.isLink, Bool.and_eq_true, beq_iff_eq] at hLink
  obtain ⟨hId, p, hp, -, hRhs⟩ := hRepeats.doubling _ _ hLink.2
  obtain ⟨p', hp', -, hSymbols⟩ := hInstance.made hId
  obtain rfl := Option.some.inj (hp.symm.trans hp')
  rintro rfl
  rw [hRhs] at hSymbols
  cases hSymbols

theorem balanced_hasError (hBuilt : RepeatsRules b.language) (h : root.All (Told b)) (id : NodeId) :
    (balanced b id root).1.hasError = root.hasError := by
  have hFronts := balanced_fronts hBuilt id root h
  exact (Fronts.singleton _).1.symm.trans (hFronts.hasError.trans (Fronts.singleton root).1)

/-- Balancing a root that is no link changes nothing that matters for taking it over. -/
theorem Rooted.balanced (h : root.Rooted b.language) (hBuilt : RepeatsRules b.language)
    (hRepeats : Repeats b.language.table w) (hInstances : root.All (Instance b.language.table w)) (hTold : root.All (Told b))
    (hStart : b.language.table.binaryRepeat b.language.table.start = none) (id : NodeId) :
    (balanced b id root).1.Rooted b.language := by
  have hLike := (instance_balanced hRepeats id root hInstances).2
  have hFronts := balanced_fronts hBuilt id root hTold
  have hLink : b.isLink root.info = false := by
    have hSymbol : root.info.symbol = b.language.table.start := h.symbol
    rw [Balancing.isLink, hSymbol, hStart]
    simp
  obtain ⟨hState, hNil⟩ := balanced_of_not_link hLink id
  generalize (Subtree.balanced b id root).1 = new at hLike hFronts hState hNil ⊢
  have hFirst := Option.some.inj (((Fronts.singleton new).2.symm.trans hFronts.first).trans (Fronts.singleton root).2)
  have hMode : new.info.firstMode = root.info.firstMode := congrArg Prod.snd hFirst
  refine ⟨hLike.symbol.trans h.symbol, hLike.extra.trans h.structural, hState.trans h.state, ?_, ?_, h.accepted⟩
  · rw [hMode]
    exact h.mode
  · by_cases hEmpty : new.children = []
    · rw [hNil hEmpty]
      exact h.full
    · exact .inl (.inl hEmpty)

/-- A root of some size that was not lexed with all terminals is taken over. -/
theorem Rooted.settled {l : Language} (h : root.Rooted l) (hStart : l.isTerminal l.table.start = false)
    (hUnchanged : root.hasChanges = false) (hClean : root.hasError = false) (hSized : 0 < root.size)
    (hMode : root.info.firstMode ≠ errorLexMode) : root.Settled l := by
  obtain ⟨q, hGoto, hAction⟩ := h.accepted
  have hNonempty : root.children ≠ [] := by
    refine (h.full.resolve_right (by omega)).resolve_right fun hToken => ?_
    rw [h.symbol, hStart] at hToken
    cases hToken
  refine ⟨hUnchanged, hClean, hSized, hNonempty, h.structural, h.state, h.mode.resolve_right hMode, q, ?_, hAction⟩
  rw [h.symbol]
  exact hGoto

end Subtree

namespace Language.FromRules

variable {p : Parser} {g : Grammar} {w : LoweredGrammar} {host : Host σ} {Ok : σ → Prop} {bytes : List UInt8} {input : σ}
  {next : NodeId} {limit : Nat} {parsed : Parser.Parsed σ}

/-- The root of a parse from scratch can be taken over whole if it has no errors and its first leaf was not lexed with all
terminals. -/
theorem settled (h : p.language.FromRules g w) (hServes : host.Serves Ok bytes) (hInput : Ok input) (hText : bytes ≠ [])
    (hStart : p.language.table.binaryRepeat p.language.table.start = none)
    (hParse : p.parse limit host input none next = some parsed) (hComplete : parsed.tree.status = .complete)
    (hClean : parsed.tree.root.hasError = false) (hMode : parsed.tree.root.info.firstMode ≠ errorLexMode) :
    parsed.tree.root.Settled p.language ∧ parsed.tree.size = bytes.length ∧ parsed.tree.root.id < parsed.nextId := by
  have hWhole := Parser.parse_whole 0 h.toBuiltFrom hServes hInput (by simp) hParse
  have hSize : parsed.tree.root.size = bytes.length := by
    have hLe := hWhole.length_le fun hCancelled => absurd (hCancelled.symm.trans hComplete) (by decide)
    have hGe := hWhole.size_le
    omega
  have hSized : 0 < parsed.tree.root.size := hSize ▸ List.length_pos_of_ne_nil hText
  refine ⟨Rooted.settled ?_ h.not_isTerminal_start hWhole.nodes.sound.unchanged hClean hSized hMode, hSize,
    hWhole.nodes.here.id_lt⟩
  rw [Parser.parse] at hParse
  obtain ⟨⟨root, status, s⟩, hRun, rfl⟩ := Option.map_eq_some_iff.mp hParse
  obtain rfl : status = .complete := hComplete
  have hRepeats : Repeats (Balancing.language ⟨p.language, fun id => decide (next ≤ id)⟩).table w :=
    h.toBuiltFrom.repeats h.lower h.repetitions h.count
  have hInstances : root.All (Instance p.language.table w) := (Session.productive_start (by simp)).run h hRun
  have hHeaded : root.All Headed := Session.Keeps.run lasting_headed (Session.keeps_start (by simp)) hRun
  have hTold := told_of_instance hRepeats hInstances hHeaded
  have hRooted : root.Rooted p.language := by
    refine (Session.rooted_of_run h hRun).resolve_left ?_
    rw [← balanced_hasError h.repeatsRules hTold s.nextId, Bool.not_eq_true]
    exact hClean
  exact Rooted.balanced hRooted h.repeatsRules hRepeats hInstances hTold hStart s.nextId

end Language.FromRules

/-- A tree that was parsed from scratch without errors comes back from every parse of the same text, whichever parser of
the language does it and however the text is served. The end of the text is lexed, and no node is made. -/
theorem parse_again {τ : Type} {p q : Parser} {g : Grammar} {w : LoweredGrammar} (h : p.language.FromRules g w)
    (hScanner : p.language.scanner = none) (hStart : p.language.table.binaryRepeat p.language.table.start = none)
    {host : Host σ} {Ok : σ → Prop} {bytes : List UInt8} (hServes : host.Serves Ok bytes) {input : σ} (hInput : Ok input)
    (hText : bytes ≠ []) {next : NodeId} {limit : Nat} {parsed : Parser.Parsed σ}
    (hParse : p.parse limit host input none next = some parsed) (hComplete : parsed.tree.status = .complete)
    (hClean : parsed.tree.root.hasError = false) (hMode : parsed.tree.root.info.firstMode ≠ errorLexMode)
    (hLanguage : q.language = p.language) (hOptions : q.options.canStop = false) {host' : Host τ} {Ok' : τ → Prop}
    (hServes' : host'.source.Serves Ok' bytes) {input' : τ} (hInput' : Ok' input') {next' : NodeId}
    (hNext : parsed.nextId ≤ next') (more : Nat) :
    ∃ again, q.parse (more + 2) host' input' (some parsed.tree) next' = some again ∧ again.tree = parsed.tree ∧
      again.nextId = next' ∧ again.parser.stats = { tokensLexed := 1, subtreesReused := 1 } := by
  obtain ⟨hSettled, hSize, hOld⟩ := h.settled hServes hInput hText hStart hParse hComplete hClean hMode
  have hTree : parsed.tree = ⟨parsed.tree.root, p.language, .complete⟩ := by
    rw [Parser.parse] at hParse
    obtain ⟨⟨root, status, s⟩, -, rfl⟩ := Option.map_eq_some_iff.mp hParse
    rw [← hComplete]
  rw [← hLanguage] at hScanner hSettled hTree
  obtain ⟨again, hAgain, hSame, hRest⟩ := hSettled.parse_eq (congrArg Tree.language hTree) hScanner hOptions hServes' hInput'
    (Nat.le_of_eq hSize.symm) (Nat.lt_of_lt_of_le hOld hNext) more
  exact ⟨again, hAgain, hSame.trans hTree.symm, hRest⟩

example : ((Parser.spaced.parse 40 (Parser.plainHost " aa a".toUTF8) () none 0).bind fun first =>
    (Parser.spaced.parse 2 (Parser.plainHost " aa a".toUTF8) () (some first.tree) first.nextId).map fun again =>
      (again.tree.root.same first.tree.root, again.parser.stats.nodesCreated)) = some (true, 0) := by decide +kernel

end Reparse
