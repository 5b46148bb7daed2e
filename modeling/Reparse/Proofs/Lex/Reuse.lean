import Reparse.Proofs.Lex.Munch
/-!
# Lexers that were used before

A lexer keeps its marks from call to call, and a mark counts only if it is of the current generation. Two lexers whose marks
are not newer than their generations therefore collect the same sets of nodes from the next renewal on, whatever they did
before, and go on in step until the generation of one of them wraps. `Used n marks` are marks that calls have renewed `n`
times. Nothing clears the marks when the generation wraps: what was marked before 2^32 renewals seems to be in the set then.
-/
namespace Reparse

variable {σ : Type}

namespace LexMarks

variable {m m' : LexMarks}

/-- The same nodes are marked. -/
structure Alike (m m' : LexMarks) : Prop where
  size : m.marks.size = m'.marks.size
  marked : ∀ n, m.isMarked n = m'.isMarked n

theorem Alike.mark (h : Alike m m') (n : UInt32) : Alike (m.mark n) (m'.mark n) := by
  refine ⟨by rw [size_mark, size_mark, h.size], fun k => Bool.eq_iff_iff.mpr ?_⟩
  rw [isMarked_mark, isMarked_mark, h.size, h.marked]

end LexMarks

namespace LexArena

variable {nodes : LexArena} {m m' : LexMarks}

theorem close_alike (nodes : LexArena) (h : m.Alike m') (fuel : Nat) (pending : List UInt32) (set : Array UInt32) :
    (nodes.close fuel pending m set).1 = (nodes.close fuel pending m' set).1 ∧
      (nodes.close fuel pending m set).2.Alike (nodes.close fuel pending m' set).2 := by
  induction fuel generalizing pending m m' set with
  | zero =>
    rw [close, close]
    exact ⟨rfl, h⟩
  | succ fuel ih =>
    cases pending with
    | nil =>
      rw [close, close]
      · exact ⟨rfl, h⟩
      · simp
      · simp
    | cons n pending =>
      rw [close, close, h.marked n]
      split
      · exact ih h pending set
      · dsimp only
        split <;> exact ih (h.mark n) _ _

theorem addNodes_alike (nodes : LexArena) (h : m.Alike m') (starts : List UInt32) (set : Array UInt32) :
    (nodes.addNodes starts m set).1 = (nodes.addNodes starts m' set).1 := by
  induction starts generalizing m m' set with
  | nil => rw [addNodes, addNodes]
  | cons n rest ih =>
    obtain ⟨hSet, hAlike⟩ := nodes.close_alike h (2 * nodes.size + 1) [n] set
    rw [addNodes, addNodes, addNode, addNode]
    dsimp only
    rw [ih hAlike, hSet]

/-- A new generation has no marks. -/
theorem Ready.alike_renew (h : nodes.Ready m) (h' : nodes.Ready m') (hRoom : m.generation.toNat + 1 < 2 ^ 32)
    (hRoom' : m'.generation.toNat + 1 < 2 ^ 32) : m.renew.Alike m'.renew := by
  obtain ⟨-, -, hNone⟩ := h.bounded.renew hRoom
  obtain ⟨-, -, hNone'⟩ := h'.bounded.renew hRoom'
  exact ⟨h.size_eq.trans h'.size_eq.symm, fun n => by rw [hNone, hNone']⟩

end LexArena

/-! ## Lexers in step -/

/-- Two lexers are about to read the same, with marks that are fit for a collection, and the second one has no more renewals
behind it than the first. -/
structure LexState.Abreast (t : Table) (s s' : LexState σ) : Prop where
  input : s.input = s'.input
  ready : t.lexNodes.Ready s.marks
  ready' : t.lexNodes.Ready s'.marks
  younger : s'.marks.generation.toNat ≤ s.marks.generation.toNat

/-- The answers are the same and leave the lexers abreast, the first one after so many renewals of its marks in `s`. -/
structure LexState.InStep {α : Type} (t : Table) (s : LexState σ) (renewals : Nat) (r r' : α × LexState σ) : Prop
    extends LexState.Abreast t r.2 r'.2 where
  answer : r.1 = r'.1
  generation : r.2.marks.generation.toNat = s.marks.generation.toNat + renewals

theorem LexState.InStep.parts {α : Type} {t : Table} {s : LexState σ} {renewals : Nat} {r r' : α × LexState σ}
    (h : LexState.InStep t s renewals r r') : ∃ answer u v, r = (answer, u) ∧ r' = (answer, v) ∧ LexState.Abreast t u v ∧
      u.marks.generation.toNat = s.marks.generation.toNat + renewals :=
  ⟨r.1, r.2, r'.2, rfl, Prod.ext h.answer.symm rfl, h.toAbreast, h.generation⟩

section InStep

variable {t : Table} {s s' : LexState σ}

theorem LexState.Abreast.read (h : LexState.Abreast t s s') (input : σ) :
    LexState.Abreast t { s with input } { s' with input } :=
  ⟨rfl, h.ready, h.ready', h.younger⟩

/-- What the first lexer collects next the second one collects too. -/
theorem LexState.Abreast.collect (h : LexState.Abreast t s s') (hRoom : s.marks.generation.toNat + 1 < 2 ^ 32)
    {starts : List UInt32} {set : Array UInt32} {marks : LexMarks}
    (hNodes : t.lexNodes.addNodes starts s.marks.renew #[] = (set, marks)) (input : σ) :
    ∃ marks', t.lexNodes.addNodes starts s'.marks.renew #[] = (set, marks') ∧
      LexState.Abreast t ⟨marks, input⟩ ⟨marks', input⟩ ∧ marks.generation.toNat = s.marks.generation.toNat + 1 := by
  have hRoom' : s'.marks.generation.toNat + 1 < 2 ^ 32 := by
    have := h.younger
    omega
  have hSet := t.lexNodes.addNodes_alike (h.ready.alike_renew h.ready' hRoom hRoom') starts #[]
  have hNew := (@LexArena.mem_addNodes _ starts _ h.ready hRoom).2
  have hNew' := (@LexArena.mem_addNodes _ starts _ h.ready' hRoom').2
  rw [hNodes] at hSet hNew
  obtain ⟨marks', hNodes'⟩ : ∃ marks', t.lexNodes.addNodes starts s'.marks.renew #[] = (set, marks') :=
    ⟨(t.lexNodes.addNodes starts s'.marks.renew #[]).2, Prod.ext hSet.symm rfl⟩
  rw [hNodes'] at hNew'
  refine ⟨marks', hNodes', ⟨rfl, hNew.1, hNew'.1, ?_⟩, hNew.2⟩
  dsimp only at hNew hNew' ⊢
  rw [hNew.2, hNew'.2]
  exact Nat.succ_le_succ h.younger

theorem matchFrom_inStep (t : Table) (src : Source σ) (pos furthest : Nat) (best : Option (Nat × Symbol))
    (set : Array UInt32) {s s' : LexState σ} (h : LexState.Abreast t s s')
    (hRoom : s.marks.generation.toNat + matchRenewals t src pos set s < 2 ^ 32) :
    LexState.InStep t s (matchRenewals t src pos set s) (matchFrom t src pos furthest best set s)
      (matchFrom t src pos furthest best set s') := by
  by_cases hSet : set.any t.lexNodes.isConsuming = true
  · match hChar : src.charAt pos s.input with
    | (none, input) =>
      have hChar' : src.charAt pos s'.input = (none, input) := h.input ▸ hChar
      obtain ⟨hRun, hRenewals⟩ := matchFrom_end t src hSet hChar
      rw [hRun, hRenewals, (matchFrom_end t src hSet hChar').1]
      exact ⟨h.read input, rfl, rfl⟩
    | (some d, input) =>
      have hChar' : src.charAt pos s'.input = (some d, input) := h.input ▸ hChar
      have hPos := Source.lt_size_of_charAt (congrArg Prod.fst hChar)
      have hWidth := d.width_pos
      obtain ⟨set', marks, hNodes⟩ : ∃ set' marks, t.lexNodes.addNodes
          (set.toList.filterMap (t.lexNodes.after? d.char)) s.marks.renew #[] = (set', marks) := ⟨_, _, rfl⟩
      obtain ⟨hRun, hRenewals⟩ := matchFrom_step t src hSet hChar hNodes
      rw [hRenewals] at hRoom ⊢
      obtain ⟨marks', hNodes', hAbreast, hGeneration⟩ := h.collect (by omega) hNodes input
      rw [hRun, (matchFrom_step t src hSet hChar' hNodes').1]
      obtain ⟨hAfter, hAnswer, hCount⟩ := matchFrom_inStep t src (pos + d.width) (max furthest (pos + d.width))
        ((set'.toList.filterMap t.lexNodes.accepted?).foldl (t.better (pos + d.width)) best) set' hAbreast
        (by dsimp only; omega)
      exact ⟨hAfter, hAnswer, by rw [hCount]; dsimp only; omega⟩
  · rw [Bool.not_eq_true] at hSet
    obtain ⟨hRun, hRenewals⟩ := matchFrom_done t src (s := s) hSet
    rw [hRun, hRenewals, (matchFrom_done t src hSet).1]
    exact ⟨h, rfl, rfl⟩
termination_by src.size - pos
decreasing_by omega

theorem longestMatch_inStep (t : Table) (src : Source σ) (pos : Nat) (tokens : List Symbol) {s s' : LexState σ}
    (h : LexState.Abreast t s s') (hRoom : s.marks.generation.toNat + longestRenewals t src pos tokens s < 2 ^ 32) :
    LexState.InStep t s (longestRenewals t src pos tokens s) (longestMatch t src pos tokens s)
      (longestMatch t src pos tokens s') := by
  obtain ⟨set, marks, hNodes⟩ : ∃ set marks, t.lexNodes.addNodes
      (tokens.filterMap fun token => (t.lexOf token).start) s.marks.renew #[] = (set, marks) := ⟨_, _, rfl⟩
  obtain ⟨hRun, hRenewals⟩ := longestMatch_step t src hNodes
  rw [hRenewals] at hRoom ⊢
  obtain ⟨marks', hNodes', hAbreast, hGeneration⟩ := h.collect (by omega) hNodes s.input
  rw [hRun, (longestMatch_step t src hNodes').1, ← h.input]
  obtain ⟨hAfter, hAnswer, hCount⟩ := matchFrom_inStep t src pos pos none set hAbreast (by dsimp only; omega)
  exact ⟨hAfter, by rw [hAnswer], by rw [hCount]; dsimp only; omega⟩

end InStep

namespace Language

section InStep

variable (l : Language) (src : Source σ) {s s' : LexState σ}

theorem keywordFor_inStep (pos : Nat) (found : Found) (h : LexState.Abreast l.table s s')
    (hRoom : s.marks.generation.toNat + l.keywordRenewals src pos found s < 2 ^ 32) :
    LexState.InStep l.table s (l.keywordRenewals src pos found s) (l.keywordFor src pos found s)
      (l.keywordFor src pos found s') := by
  rw [keywordFor, keywordFor]
  rw [keywordRenewals] at hRoom ⊢
  split
  next hWord =>
    rw [if_pos hWord] at hRoom
    obtain ⟨keyword, u, v, hu, hv, hAfter, hCount⟩ := (longestMatch_inStep l.table src pos l.keywords h hRoom).parts
    rw [hu, hv]
    cases keyword with
    | none => exact ⟨hAfter, rfl, hCount⟩
    | some keyword =>
      dsimp only
      split <;> exact ⟨hAfter, rfl, hCount⟩
  next => exact ⟨h, rfl, rfl⟩

theorem lexInternal_inStep (pos : Nat) (mode : LexMode) (id : LexModeId) (h : LexState.Abreast l.table s s')
    (hRoom : s.marks.generation.toNat + l.internalRenewals src pos mode s < 2 ^ 32) :
    LexState.InStep l.table s (l.internalRenewals src pos mode s) (l.lexInternal src pos mode id s)
      (l.lexInternal src pos mode id s') := by
  rw [lexInternal, lexInternal]
  rw [internalRenewals] at hRoom ⊢
  obtain ⟨found, u, v, hu, hv, hAfter, hCount⟩ := (longestMatch_inStep l.table src pos mode.tokens h (by omega)).parts
  rw [hu] at hRoom ⊢
  rw [hv]
  cases found with
  | none => exact ⟨hAfter, rfl, hCount⟩
  | some found =>
    dsimp only at hRoom ⊢
    obtain ⟨hAfter', hAnswer, hCount'⟩ := keywordFor_inStep l src pos found hAfter (by rw [hCount]; omega)
    exact ⟨hAfter', by rw [hAnswer], by rw [hCount', hCount, Nat.add_assoc]⟩

theorem skipFrom_end {stop furthest : Nat} {input : σ}
    (hChar : src.charAt stop s.input = (none, input)) :
    l.skipFrom src stop furthest s = ((stop, furthest), { s with input }) ∧ l.skipRenewals src stop s = 0 := by
  constructor
  · rw [skipFrom]
    split
    next hNone =>
      rw [hChar] at hNone
      obtain rfl := (Prod.mk.inj hNone).2
      rfl
    next hSome => rw [hChar] at hSome; cases hSome
  · rw [skipRenewals]
    split
    next => rfl
    next hSome => rw [hChar] at hSome; cases hSome

theorem skipFrom_inStep (stop furthest : Nat) {s s' : LexState σ} (h : LexState.Abreast l.table s s')
    (hRoom : s.marks.generation.toNat + l.skipRenewals src stop s < 2 ^ 32) :
    LexState.InStep l.table s (l.skipRenewals src stop s) (l.skipFrom src stop furthest s)
      (l.skipFrom src stop furthest s') := by
  match hChar : src.charAt stop s.input with
  | (none, input) =>
    have hChar' : src.charAt stop s'.input = (none, input) := h.input ▸ hChar
    obtain ⟨hRun, hRenewals⟩ := skipFrom_end l src hChar
    rw [hRun, hRenewals, (skipFrom_end l src hChar').1]
    exact ⟨h.read input, rfl, rfl⟩
  | (some d, input) =>
    have hChar' : src.charAt stop s'.input = (some d, input) := h.input ▸ hChar
    have hPos := Source.lt_size_of_charAt (congrArg Prod.fst hChar)
    have hWidth := d.width_pos
    obtain ⟨hRun, hRenewals⟩ := skipFrom_step l src hChar
    rw [hRenewals] at hRoom ⊢
    rw [hRun, (skipFrom_step l src hChar').1]
    match hNext : src.charAt (stop + d.width) input with
    | (none, input) => exact ⟨h.read input, rfl, rfl⟩
    | (some d', input) =>
      rw [hNext] at hRoom
      dsimp only at hRoom ⊢
      change _ + (_ + _) < _ at hRoom
      obtain ⟨found, u, v, hu, hv, hAfter, hCount⟩ := (longestMatch_inStep l.table src (stop + d.width)
        l.errorMode.tokens (h.read input) (by dsimp only; omega)).parts
      rw [hu] at hRoom ⊢
      rw [hv]
      cases found with
      | some found => exact ⟨hAfter, rfl, hCount⟩
      | none =>
        dsimp only at hCount hRoom ⊢
        obtain ⟨hAfter', hAnswer', hCount'⟩ := skipFrom_inStep (stop + d.width) (max furthest (stop + d.width)) hAfter
          (by rw [hCount]; omega)
        exact ⟨hAfter', hAnswer', by rw [hCount', hCount, Nat.add_assoc]⟩
termination_by src.size - stop
decreasing_by omega

theorem lexError_inStep (pos : Nat) (h : LexState.Abreast l.table s s')
    (hRoom : s.marks.generation.toNat + l.skipRenewals src pos s < 2 ^ 32) :
    LexState.InStep l.table s (l.skipRenewals src pos s) (l.lexError src pos s) (l.lexError src pos s') := by
  obtain ⟨ends, u, v, hu, hv, hAfter, hCount⟩ := (skipFrom_inStep l src pos pos h hRoom).parts
  rw [lexError, lexError, hu, hv]
  exact ⟨hAfter, rfl, hCount⟩

theorem lexAutomata_inStep (pos : Nat) (id : LexModeId) (h : LexState.Abreast l.table s s')
    (hRoom : s.marks.generation.toNat + l.lexRenewals src pos id s < 2 ^ 32) :
    LexState.InStep l.table s (l.lexRenewals src pos id s) (l.lexAutomata src pos id s) (l.lexAutomata src pos id s') := by
  rw [lexAutomata, lexAutomata, ← h.input]
  rw [lexRenewals] at hRoom ⊢
  generalize src.charAt pos s.input = answer at hRoom ⊢
  obtain ⟨d, input⟩ := answer
  cases d with
  | none => exact ⟨h.read input, rfl, rfl⟩
  | some d =>
    dsimp only at hRoom ⊢
    obtain ⟨token, u, v, hu, hv, hAfter, hCount⟩ := (lexInternal_inStep l src pos (l.lexMode id) id (h.read input)
      (by dsimp only; omega)).parts
    rw [hu] at hRoom ⊢
    rw [hv]
    cases token with
    | some token => exact ⟨hAfter, rfl, hCount⟩
    | none =>
      dsimp only at hCount hRoom ⊢
      split
      next hId =>
        rw [if_pos hId] at hRoom
        obtain ⟨hAfter', hAnswer, hCount'⟩ := lexError_inStep l src pos hAfter (by rw [hCount]; omega)
        exact ⟨hAfter', hAnswer, by rw [hCount', hCount, Nat.add_assoc]⟩
      next hId =>
        rw [if_neg hId] at hRoom
        obtain ⟨token, u', v', hu', hv', hAfter', hCount'⟩ := (lexInternal_inStep l src pos (l.lexMode errorLexMode)
          errorLexMode hAfter (by rw [hCount]; omega)).parts
        rw [hu'] at hRoom ⊢
        rw [hv']
        cases token with
        | some token => exact ⟨hAfter', rfl, by rw [hCount', hCount, Nat.add_assoc]; rfl⟩
        | none =>
          dsimp only at hRoom ⊢
          obtain ⟨hAfter'', hAnswer, hCount''⟩ := lexError_inStep l src pos hAfter' (by rw [hCount', hCount]; omega)
          exact ⟨hAfter'', hAnswer, by rw [hCount'', hCount', hCount, Nat.add_assoc, Nat.add_assoc]⟩

end InStep

/-! ## Calls on one lexer -/

/-- The marks of a lexer after some calls, whatever they read and in whichever modes, by which the marks were renewed `n`
times. -/
inductive Used (l : Language) : Nat → LexMarks → Prop
  | new : Used l 0 l.lexMarks
  | lex {σ : Type} {n : Nat} {marks : LexMarks} (src : Source σ) (input : σ) (pos : Nat) (id : LexModeId)
    (state : Option (List UInt8)) : Used l n marks →
    Used l (n + l.lexRenewals src pos id ⟨marks, input⟩) (l.lex none src pos id state ⟨marks, input⟩).2.marks

variable {l : Language} {src : Source σ} {n : Nat} {marks : LexMarks}

theorem Used.ready (h : l.Used n marks) (hRoom : n < 2 ^ 32) :
    l.table.lexNodes.Ready marks ∧ marks.generation.toNat = n := by
  induction h with
  | new =>
    have hReady : LexState.Ready l.table (fun _ : Unit => True) ⟨l.lexMarks, ()⟩ := lexMarks_ready trivial
    exact ⟨hReady.marks, rfl⟩
  | @lex _ n marks src input pos id _ _ ih =>
    obtain ⟨hReady, hGeneration⟩ := ih (by omega)
    -- A call is in step with itself.
    have hAbreast : LexState.Abreast l.table ⟨marks, input⟩ ⟨marks, input⟩ := ⟨rfl, hReady, hReady, Nat.le_refl _⟩
    obtain ⟨hAfter, -, hCount⟩ := lexAutomata_inStep l src pos id hAbreast (by rw [hGeneration]; exact hRoom)
    exact ⟨hAfter.ready, hCount.trans (congrArg (· + _) hGeneration)⟩

/-- As long as the generation does not wrap a call gives the token that it gives on a new lexer. -/
theorem Used.lex_eq_new (h : l.Used n marks) (input : σ) (pos : Nat) (id : LexModeId) (state : Option (List UInt8))
    (hRoom : n + l.lexRenewals src pos id ⟨marks, input⟩ < 2 ^ 32) :
    (l.lex none src pos id state ⟨marks, input⟩).1 = (l.lex none src pos id state ⟨l.lexMarks, input⟩).1 := by
  obtain ⟨hReady, hGeneration⟩ := h.ready (by omega)
  obtain ⟨hNew, -⟩ := (Used.new (l := l)).ready (by omega)
  have hAbreast : LexState.Abreast l.table ⟨marks, input⟩ ⟨l.lexMarks, input⟩ := ⟨rfl, hReady, hNew, Nat.zero_le _⟩
  refine (lexAutomata_inStep l src pos id hAbreast ?_).answer
  rw [hGeneration]
  exact hRoom

end Language

/-- The one token is the letter `b`. -/
def Grammar.single : Grammar where
  name := "single"
  tokens := [("b", .literal ['b'])]
  rules := [⟨"s", [.symbol "b"], 0, .none⟩]

theorem Grammar.single_build : (Grammar.single.build.toOption.map fun t =>
    (t.lexNodes, t.errorMode.tokens, (t.lexOf ⟨1⟩).start, t.word, t.lexModes.1.size)) =
      some (#[.accept ⟨1⟩, .chars ⟨#[('b', 'b')], false⟩ 0], [⟨1⟩], some 1, none, 2) := by cbv

namespace Language

/-- A language that lexes the letter `b` only: the automaton begins at node 1 and ends at node 0. -/
structure Single (l : Language) : Prop where
  nodes : l.table.lexNodes = #[.accept ⟨1⟩, .chars ⟨#[('b', 'b')], false⟩ 0]
  start : (l.table.lexOf ⟨1⟩).start = some 1
  tokens : l.errorMode.tokens = [⟨1⟩]
  mode : l.lexMode errorLexMode = l.errorMode
  word : l.table.word = none

theorem exists_single : ∃ l : Language, l.BuiltFrom Grammar.single ∧ l.Single := by
  have hBuild := Grammar.single_build
  cases h : Grammar.single.build with
  | error e => simp [h, Except.toOption] at hBuild
  | ok t =>
    rw [h] at hBuild
    simp only [Except.toOption, Option.map_some, Option.some.injEq, Prod.mk.injEq] at hBuild
    obtain ⟨hNodes, hTokens, hStart, hWord, hModes⟩ := hBuild
    refine ⟨.ofValid 0 t Blob.formatVersion, ⟨h, rfl, rfl, rfl⟩, hNodes, hStart, hTokens, ?_, hWord⟩
    change (t.lexModes.1[(0xFFFF : UInt16).toNat]?).getD t.errorMode = t.errorMode
    rw [Array.getElem?_eq_none (by rw [hModes]; decide)]
    rfl

/-- A second call on the text `bb` gives what it gives on a new lexer. -/
theorem single_lex_eq_new : ∃ (l : Language) (n : Nat) (marks : LexMarks), l.BuiltFrom Grammar.single ∧ l.Used n marks ∧
    n + l.lexRenewals (.ofBytes "bb".toUTF8) 1 errorLexMode ⟨marks, ()⟩ < 2 ^ 32 ∧
    (l.lex none (.ofBytes "bb".toUTF8) 1 errorLexMode none ⟨marks, ()⟩).1 =
      (l.lex none (.ofBytes "bb".toUTF8) 1 errorLexMode none ⟨l.lexMarks, ()⟩).1 := by
  obtain ⟨l, hBuilt, -⟩ := exists_single
  have hUsed := (Used.new (l := l)).lex (.ofBytes "bb".toUTF8) () 0 errorLexMode none
  have hFirst := l.lexRenewals_le (.ofBytes "bb".toUTF8) 0 errorLexMode ⟨l.lexMarks, ()⟩
  generalize l.lexRenewals (.ofBytes "bb".toUTF8) 0 errorLexMode ⟨l.lexMarks, ()⟩ = n at hUsed hFirst
  generalize (l.lex none (.ofBytes "bb".toUTF8) 0 errorLexMode none ⟨l.lexMarks, ()⟩).2.marks = marks at hUsed
  have hSecond := l.lexRenewals_le (.ofBytes "bb".toUTF8) 1 errorLexMode ⟨marks, ()⟩
  have hSize : (Source.ofBytes "bb".toUTF8 : Source Unit).size = 2 := by decide
  rw [hSize] at hFirst hSecond
  have hRoom : 0 + n + l.lexRenewals (.ofBytes "bb".toUTF8) 1 errorLexMode ⟨marks, ()⟩ < 2 ^ 32 := by omega
  exact ⟨l, _, marks, hBuilt, hUsed, hRoom, hUsed.lex_eq_new () 1 errorLexMode none hRoom⟩

/-! ## A generation that wraps -/

/-- The letter `b` and then bytes that are no characters. -/
def padded (n : Nat) : Source Unit := .ofBytes ⟨(0x62 :: List.replicate n 0x80).toArray⟩

/-- The marks of a lexer for one letter that has renewed them so many times and found no match. -/
def missedMarks (renewals : Nat) : LexMarks := ⟨#[0, .ofNat (renewals - 1)], .ofNat renewals⟩

/-- The start node can be collected again. -/
theorem missed_stale (c : Nat) : UInt32.ofNat (c - 1) ≠ UInt32.ofNat c + 1 := by
  rw [Ne, ← UInt32.toNat_inj, UInt32.toNat_add, UInt32.toNat_ofNat', UInt32.toNat_ofNat']
  change ¬(_ = (_ + 1) % _)
  omega

/-- The marks after calls in the error mode, one at each of the positions. -/
def marksAfter (l : Language) (src : Source Unit) : List Nat → LexMarks → LexMarks
  | [], marks => marks
  | pos :: rest, marks => marksAfter l src rest (l.lex none src pos errorLexMode none ⟨marks, ()⟩).2.marks

theorem charAt_padded (n pos : Nat) :
    (padded n).charAt pos () = (Source.decodeAt (0x62 :: List.replicate n 0x80) pos, ()) := by
  have hServes := Source.serves_ofBytes (σ := Unit) ⟨(0x62 :: List.replicate n 0x80).toArray⟩
  exact Prod.ext (hServes.charAt_eq trivial).1 rfl

theorem charAt_padded_zero (n : Nat) : ∃ d, (padded n).charAt 0 () = (some d, ()) ∧ d.char = 'b' ∧ d.width = 1 := by
  rw [charAt_padded]
  have hDecode : Utf8.decode? [0x62] = some 'b' := by decide
  have hWidth : Utf8.width 0x62 = 1 := by decide
  refine ⟨⟨'b', Utf8.width 0x62, by decide⟩, ?_, rfl, hWidth⟩
  rw [Source.decodeAt, List.drop_zero]
  simp [hWidth, hDecode]

theorem charAt_padded_succ {n pos : Nat} (h : pos < n) : (padded n).charAt (pos + 1) () = (some Source.illFormed, ()) := by
  obtain ⟨k, rfl⟩ := Nat.exists_eq_add_of_lt h
  have hDrop : (0x62 :: List.replicate (pos + k + 1) (0x80 : UInt8)).drop (pos + 1) = 0x80 :: List.replicate k 0x80 := by
    rw [List.drop_succ_cons, List.drop_replicate, ← List.replicate_succ]
    congr 1
    omega
  have hWidth : ¬0 < Utf8.width 0x80 := by decide
  rw [charAt_padded, Source.decodeAt, hDrop]
  simp [hWidth]

theorem charAt_padded_end (n : Nat) : (padded n).charAt (n + 1) () = (none, ()) := by
  rw [charAt_padded, Source.decodeAt_eq_none.mpr (by simp)]

section Single

variable {l : Language} (h : l.Single) {n : Nat}
include h

/-- The start node is collected unless its mark is that of the next generation. -/
theorem Single.collect_start {a b g : UInt32} (hStale : b ≠ g + 1) :
    l.table.lexNodes.addNodes [1] (LexMarks.renew ⟨#[a, b], g⟩) #[] = (#[1], ⟨#[a, g + 1], g + 1⟩) := by
  simp [h.nodes, LexArena.addNodes, LexArena.addNode, LexArena.close, LexMarks.renew, LexMarks.isMarked, LexMarks.mark,
    hStale]

theorem Single.collect_accept {a b g : UInt32} :
    l.table.lexNodes.addNodes [0] (LexMarks.renew ⟨#[a, b], g⟩) #[] =
      if a = g + 1 then (#[], ⟨#[a, b], g + 1⟩) else (#[0], ⟨#[g + 1, b], g + 1⟩) := by
  by_cases ha : a = g + 1
  · simp [h.nodes, LexArena.addNodes, LexArena.addNode, LexArena.close, LexMarks.renew, LexMarks.isMarked, ha]
  · simp [h.nodes, LexArena.addNodes, LexArena.addNode, LexArena.close, LexMarks.renew, LexMarks.isMarked, LexMarks.mark, ha]

theorem Single.after_start (x : Char) : l.table.lexNodes.after? x 1 = if x = 'b' then some 0 else none := by
  rw [h.nodes]
  simp [LexArena.after?, LexArena.contains_single]

/-- A search for a match goes on from the start node, whose mark is new. -/
theorem Single.longestMatch_eq (src : Source Unit) (pos : Nat) {a b g : UInt32} (hStale : b ≠ g + 1) :
    longestMatch l.table src pos l.errorMode.tokens ⟨⟨#[a, b], g⟩, ()⟩ =
      ((matchFrom l.table src pos pos none #[1] ⟨⟨#[a, g + 1], g + 1⟩, ()⟩).1.1.map fun c =>
        ⟨c.2, c.1, (matchFrom l.table src pos pos none #[1] ⟨⟨#[a, g + 1], g + 1⟩, ()⟩).1.2⟩,
        (matchFrom l.table src pos pos none #[1] ⟨⟨#[a, g + 1], g + 1⟩, ()⟩).2) := by
  have hStarts : l.errorMode.tokens.filterMap (fun token => (l.table.lexOf token).start) = [1] := by
    simp [h.tokens, h.start]
  refine (longestMatch_step l.table src ?_).1
  rw [hStarts]
  exact h.collect_start hStale

/-- At a character there is a match if that is the letter, unless the mark of the accepting node is that of the generation
after the next. -/
theorem Single.longestMatch_char {src : Source Unit} {pos : Nat} {d : Decoded} (hChar : src.charAt pos () = (some d, ()))
    {a b g : UInt32} (hStale : b ≠ g + 1) :
    longestMatch l.table src pos l.errorMode.tokens ⟨⟨#[a, b], g⟩, ()⟩ =
      if d.char = 'b' ∧ a ≠ g + 2 then (some ⟨⟨1⟩, pos + d.width, pos + d.width⟩, ⟨⟨#[g + 2, g + 1], g + 2⟩, ()⟩)
      else (none, ⟨⟨#[a, g + 1], g + 2⟩, ()⟩) := by
  have hConsuming : (#[1] : Array UInt32).any l.table.lexNodes.isConsuming = true := by
    simp [h.nodes, LexArena.isConsuming]
  have hNext : g + 1 + 1 = g + 2 := by rw [add_assoc]; rfl
  have hDone (best : Option (Nat × Symbol)) (s : LexState Unit) :
      matchFrom l.table src (pos + d.width) (pos + d.width) best #[0] s = ((best, pos + d.width), s) :=
    (matchFrom_done l.table src (by simp [h.nodes, LexArena.isConsuming])).1
  have hAccepted : l.table.lexNodes.accepted? 0 = some ⟨1⟩ := by simp [h.nodes, LexArena.accepted?]
  rw [h.longestMatch_eq src pos hStale, (matchFrom_step l.table src hConsuming hChar rfl).1]
  simp only [List.filterMap_cons, List.filterMap_nil, h.after_start]
  by_cases hLetter : d.char = 'b'
  · simp only [hLetter, if_true, true_and, h.collect_accept, hNext]
    by_cases hMarked : a = g + 2
    · simp [hMarked, matchFrom_done]
    · simp [hMarked, hDone, hAccepted, Table.better]
  · simp [hLetter, LexArena.addNodes, matchFrom_done, LexMarks.renew, hNext]

/-- A search for a match at a byte that is no character. -/
theorem Single.longestMatch_padded {pos : Nat} (hPos : pos < n) (c : Nat) :
    longestMatch l.table (padded n) (pos + 1) l.errorMode.tokens ⟨missedMarks c, ()⟩ = (none, ⟨missedMarks (c + 2), ()⟩) := by
  have hOther : ¬(Source.illFormed.char = 'b' ∧ (0 : UInt32) ≠ UInt32.ofNat c + 2) := fun hLetter =>
    absurd hLetter.1 (by decide)
  rw [missedMarks, h.longestMatch_char (charAt_padded_succ hPos) (missed_stale c), if_neg hOther, missedMarks,
    UInt32.ofNat_add, Nat.add_sub_assoc (by decide), UInt32.ofNat_add]
  rfl

/-- Skipping searches for a match at each of the `k` bytes that come after the one at which it begins. -/
theorem Single.skipFrom_padded {k pos : Nat} (hPos : pos + 1 + k = n) (furthest c : Nat) :
    (l.skipFrom (padded n) (pos + 1) furthest ⟨missedMarks c, ()⟩).2 = ⟨missedMarks (c + 2 * k), ()⟩ := by
  induction k generalizing pos furthest c with
  | zero =>
    have hNext : (padded n).charAt (pos + 1 + Source.illFormed.width) () = (none, ()) := by
      obtain rfl : pos + 1 = n := hPos
      exact charAt_padded_end _
    rw [(skipFrom_step l (padded n) (charAt_padded_succ (by omega))).1, hNext]
    rfl
  | succ k ih =>
    have hNext : (padded n).charAt (pos + 1 + Source.illFormed.width) () = (some Source.illFormed, ()) :=
      charAt_padded_succ (by omega)
    have hMiss : longestMatch l.table (padded n) (pos + 1 + Source.illFormed.width) l.errorMode.tokens ⟨missedMarks c, ()⟩ =
        (none, ⟨missedMarks (c + 2), ()⟩) := h.longestMatch_padded (by omega) c
    rw [(skipFrom_step l (padded n) (charAt_padded_succ (by omega))).1, hNext]
    dsimp only
    rw [hMiss]
    dsimp only
    rw [show c + 2 * (k + 1) = c + 2 + 2 * k by omega]
    exact ih (show pos + 1 + 1 + k = n by omega) (max furthest (pos + 1 + Source.illFormed.width)) (c + 2)

/-- What a call does that finds no match at its position. -/
theorem Single.lexAutomata_missed {src : Source Unit} {pos : Nat} {d : Decoded} (hChar : src.charAt pos () = (some d, ()))
    {m m' : LexMarks} (hMiss : longestMatch l.table src pos l.errorMode.tokens ⟨m, ()⟩ = (none, ⟨m', ()⟩)) :
    l.lexAutomata src pos errorLexMode ⟨m, ()⟩ = l.lexError src pos ⟨m', ()⟩ := by
  rw [lexAutomata, hChar]
  dsimp only
  rw [lexInternal, h.mode, hMiss]
  dsimp only
  rw [if_pos rfl]

/-- A call at any byte but the first renews the marks twice for that byte and twice for each one after it. -/
theorem Single.marks_lex_padded {pos : Nat} (hFirst : 1 ≤ pos) (hLast : pos ≤ n) (c : Nat) :
    (l.lex none (padded n) pos errorLexMode none ⟨missedMarks c, ()⟩).2.marks = missedMarks (c + 2 * (n + 1 - pos)) := by
  obtain ⟨pos, rfl⟩ := Nat.exists_eq_add_of_le' hFirst
  have hRun : l.lex none (padded n) (pos + 1) errorLexMode none ⟨missedMarks c, ()⟩ =
      l.lexError (padded n) (pos + 1) ⟨missedMarks (c + 2), ()⟩ :=
    h.lexAutomata_missed (charAt_padded_succ hLast) (h.longestMatch_padded hLast c)
  have hSkip := h.skipFrom_padded (show pos + 1 + (n - (pos + 1)) = n by omega) (pos + 1) (c + 2)
  rw [hRun, lexError]
  generalize l.skipFrom (padded n) (pos + 1) (pos + 1) ⟨missedMarks (c + 2), ()⟩ = r at hSkip ⊢
  obtain ⟨⟨stop, furthest⟩, s⟩ := r
  obtain rfl : s = _ := hSkip
  change missedMarks _ = missedMarks _
  congr 1
  omega

theorem Single.marksAfter_padded {positions : List Nat} (hWithin : ∀ pos ∈ positions, 1 ≤ pos ∧ pos ≤ n) (c : Nat) :
    l.marksAfter (padded n) positions (missedMarks c) =
      missedMarks (c + (positions.map fun pos => 2 * (n + 1 - pos)).sum) := by
  induction positions generalizing c with
  | nil => rfl
  | cons pos rest ih =>
    obtain ⟨⟨hFirst, hLast⟩, hRest⟩ := List.forall_mem_cons.mp hWithin
    rw [marksAfter, h.marks_lex_padded hFirst hLast, ih hRest, List.map_cons, List.sum_cons, Nat.add_assoc]

/-- After calls at bytes that are no characters the letter is lost exactly if its search makes the generation wrap to zero. -/
theorem Single.letter_after {positions : List Nat} (hWithin : ∀ pos ∈ positions, 1 ≤ pos ∧ pos ≤ n) :
    (l.lex none (padded n) 0 errorLexMode none ⟨l.marksAfter (padded n) positions l.lexMarks, ()⟩).1.symbol =
      if ((positions.map fun pos => 2 * (n + 1 - pos)).sum + 2) % 2 ^ 32 = 0 then .error else ⟨1⟩ := by
  have hNew : l.lexMarks = missedMarks 0 := by
    rw [lexMarks, h.nodes]
    rfl
  rw [hNew, h.marksAfter_padded hWithin, Nat.zero_add]
  generalize (positions.map fun pos => 2 * (n + 1 - pos)).sum = c
  obtain ⟨d, hChar, hLetter, -⟩ := charAt_padded_zero n
  have hWraps : (0 : UInt32) = UInt32.ofNat c + 2 ↔ (c + 2) % 2 ^ 32 = 0 := by
    rw [← UInt32.toNat_inj, UInt32.toNat_add, UInt32.toNat_ofNat']
    change (0 = (_ + 2) % _) ↔ _
    omega
  have hSearch := h.longestMatch_char hChar (a := 0) (missed_stale c)
  change (l.lexAutomata _ _ _ _).1.symbol = _
  by_cases hWrap : (c + 2) % 2 ^ 32 = 0
  · rw [if_neg fun hFound => hFound.2 (hWraps.mpr hWrap)] at hSearch
    rw [missedMarks, h.lexAutomata_missed hChar hSearch, if_pos hWrap]
    rfl
  · rw [if_pos ⟨hLetter, mt hWraps.mp hWrap⟩] at hSearch
    rw [lexAutomata, hChar]
    dsimp only
    rw [lexInternal, h.mode, missedMarks, hSearch, if_neg hWrap]
    dsimp only
    rw [keywordFor, h.word, if_neg (by simp)]
    rfl

end Single

theorem Used.marksAfter {n : Nat} {marks : LexMarks} {l : Language} (h : l.Used n marks) (src : Source Unit)
    (positions : List Nat) : ∃ renewals, l.Used renewals (l.marksAfter src positions marks) := by
  induction positions generalizing n marks with
  | nil => exact ⟨n, h⟩
  | cons pos rest ih => exact ih (.lex src () pos errorLexMode none h)

/-- A lexer that has made 512 calls at bytes that are no characters takes the letter for an error. A new one does not. -/
theorem wrapped_generation_misses : ∃ (l : Language) (renewals : Nat) (marks : LexMarks), l.BuiltFrom Grammar.single ∧
    l.Used renewals marks ∧ marks = l.marksAfter (padded (2 ^ 22)) (List.replicate 511 1 ++ [2]) l.lexMarks ∧
    (l.lex none (padded (2 ^ 22)) 0 errorLexMode none ⟨l.lexMarks, ()⟩).1.symbol = ⟨1⟩ ∧
    (l.lex none (padded (2 ^ 22)) 0 errorLexMode none ⟨marks, ()⟩).1.symbol = .error := by
  obtain ⟨l, hBuilt, hSingle⟩ := exists_single
  have hWithin : ∀ pos ∈ List.replicate 511 1 ++ [2], 1 ≤ pos ∧ pos ≤ 2 ^ 22 := by
    intro pos hPos
    rcases List.mem_append.mp hPos with hPos | hPos
    · rw [(List.mem_replicate.mp hPos).2]
      decide
    · rw [List.mem_singleton.mp hPos]
      decide
  have hRenewals : ((List.replicate 511 1 ++ [2]).map fun pos => 2 * (2 ^ 22 + 1 - pos)).sum = 2 ^ 32 - 2 := by
    rw [List.map_append, List.map_replicate, List.sum_append, List.sum_replicate]
    rfl
  have hNew := hSingle.letter_after (show ∀ pos ∈ [], 1 ≤ pos ∧ pos ≤ 2 ^ 22 by simp)
  have hUsed := hSingle.letter_after hWithin
  rw [hRenewals, if_pos (by decide)] at hUsed
  rw [Language.marksAfter, if_neg (by decide)] at hNew
  obtain ⟨renewals, hCalls⟩ := (Used.new (l := l)).marksAfter (padded (2 ^ 22)) (List.replicate 511 1 ++ [2])
  exact ⟨l, renewals, _, hBuilt, hCalls, rfl, hNew, hUsed⟩

end Language
end Reparse
