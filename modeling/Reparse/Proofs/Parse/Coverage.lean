import Reparse.Parse.Parser
import Reparse.Proofs.Parse.Invariant
import Reparse.Proofs.Tree.Damage
/-!
# Every parse covers its input

However a parse ends, its tree is over the whole text and tiled by its leaves. Edits of such a tree flag what they
touch and nothing else.
-/
namespace Reparse

open Subtree

variable {σ : Type}

namespace Session

variable {env : SessionEnv σ} {Ok : σ → Prop} {bytes : List UInt8} {room : Nat} {s t : Session σ} {g : Grammar}

/-! ## Runs -/

theorem Covers.counted (h : Covers env Ok bytes room s) : Covers env Ok bytes room { s with steps := s.steps + 1 } :=
  ⟨⟨h.input, h.ids, h.stack, h.position, h.skip, h.reuse⟩, h.pending, h.deferred, h.behind⟩

theorem Covers.steps (hServes : env.host.Serves Ok bytes) (hBuilt : env.language.BuiltFrom g)
    (h : Covers env Ok bytes room s) {id : Option ProductionId} {p : Progress σ} (hSteps : Steps env Ok s id p) :
    CoversAfter env Ok bytes room p := by
  cases hSteps with
  | stopped => exact h.counted.toGrounded.cancelled hServes hBuilt
  | reduced hTakes => exact (h.counted.holds hServes hBuilt hTakes).2 rfl
  | acted hTakes hActs => exact ((h.counted.holds hServes hBuilt hTakes).1 _ rfl).acts hBuilt hActs

/-- What every step preserves. -/
theorem Covers.next (hServes : env.host.Serves Ok bytes) (hBuilt : env.language.BuiltFrom g)
    (h : Covers env Ok bytes room s) : CoversAfter env Ok bytes room (s.next env) :=
  h.steps hServes hBuilt (steps_next (hServes.keeps hBuilt) s)

theorem Covers.reaches (hServes : env.host.Serves Ok bytes) (hBuilt : env.language.BuiltFrom g)
    (h : Covers env Ok bytes room s) (hReaches : Reaches env s t) : Covers env Ok bytes room t := by
  apply hReaches.invariant h
  intro s t hs hNext
  have hAfter := hs.next hServes hBuilt
  rwa [hNext] at hAfter

/-- However a run ends, its root is over the whole text. -/
theorem Covers.run (hServes : env.host.Serves Ok bytes) (hBuilt : env.language.BuiltFrom g)
    (h : Covers env Ok bytes room s) {limit : Nat} {root : Subtree} {status : ParseStatus}
    (hRun : Session.run env limit s = some (root, status, t)) :
    Whole env.language env.firstId bytes room status t.nextId root := by
  obtain ⟨last, hReaches, hLast⟩ := reaches_of_run hRun
  have hEnd := (h.reaches hServes hBuilt hReaches).next hServes hBuilt
  rwa [hLast] at hEnd

end Session

namespace Parser

variable {p : Parser} {g : Grammar} {host : Host σ} {Ok : σ → Prop} {bytes : List UInt8} {input : σ}
  {old : Option Tree} {next : NodeId} {limit : Nat} {parsed : Parsed σ}

theorem parse_whole (room : Nat) (hBuilt : p.language.BuiltFrom g) (hServes : host.Serves Ok bytes) (hInput : Ok input)
    (hOld : ∀ tree ∈ old, tree.root.All (Former next) ∧ tree.size ≤ max bytes.length room)
    (h : p.parse limit host input old next = some parsed) :
    Session.Whole p.language next bytes room parsed.tree.status parsed.nextId parsed.tree.root := by
  rw [parse] at h
  obtain ⟨⟨root, status, s⟩, hRun, rfl⟩ := Option.map_eq_some_iff.mp h
  have hKept : ∀ tree ∈ old.filter fun tree => tree.language.sameAs p.language,
      tree.root.All (Former next) ∧ tree.size ≤ max bytes.length room :=
    fun tree hTree => hOld tree (Option.eq_some_of_filter_eq_some hTree)
  have hStart : Session.Covers ⟨p.language, host, p.options, next⟩ Ok bytes room (.start p.marks input _ next) :=
    Session.covers_start hInput hKept
  have hWhole := hStart.run hServes hBuilt hRun
  cases status with
  | complete =>
    have hBalanced := balanced_regrown hBuilt.repeatsRules s.nextId root hWhole.nodes
    have hTotal := hBalanced.size
    simp only [totalOf_cons, totalOf_nil, Nat.add_zero] at hTotal
    exact ⟨hBalanced.nodes _ List.mem_cons_self, fun hShort => hTotal ▸ hWhole.length_le hShort, hTotal ▸ hWhole.size_le,
      Nat.le_trans hWhole.first_le hBalanced.le⟩
  | cancelled => exact hWhole

end Parser

/-- A tree that was parsed and perhaps edited since, all of whose nodes are numbered below `next`. -/
inductive Tree.Arises : NodeId → Tree → Prop
  | parsed {σ : Type} {p : Parser} {g : Grammar} {host : Host σ} {Ok : σ → Prop} {bytes : List UInt8} {input : σ}
    {old : Option Tree} {next : NodeId} {limit : Nat} {parsed : Parser.Parsed σ} : p.language.BuiltFrom g →
    host.Serves Ok bytes → Ok input → (∀ tree ∈ old, Arises next tree) →
    p.parse limit host input old next = some parsed → Arises parsed.nextId parsed.tree
  | edited {tree : Tree} {next : NodeId} (e : Edit) : Arises next tree →
    Arises (tree.edited e next).2 (tree.edited e next).1
  | later {tree : Tree} {next later : NodeId} : Arises next tree → next ≤ later → Arises later tree

theorem Tree.Arises.former {next : NodeId} {tree : Tree} (h : Arises next tree) : tree.root.All (Former next) := by
  induction h with
  | @parsed σ p g host Ok bytes input old next limit parsed hBuilt hServes hInput _ hParse ih =>
    have hWhole := Parser.parse_whole ((old.map Tree.size).getD 0) hBuilt hServes hInput (fun tree hTree => by
      obtain rfl := Option.mem_def.mp hTree
      exact ⟨ih tree hTree, Nat.le_max_right _ _⟩) hParse
    exact hWhole.nodes.former
  | @edited tree next e _ ih =>
    have hOrdered : (e.clamped tree.size).Ordered := ⟨Nat.min_le_right _ _, Nat.le_max_right _ _⟩
    have hStart : (e.clamped tree.size).start ≤ tree.size := by
      simp only [Edit.clamped]
      omega
    exact (former_edited ih hOrdered (Nat.le_trans hStart (Nat.le_add_right _ _))).2
  | later _ hNext ih => exact ih.former_later hNext

/-- The table of `Grammar.repeated`. -/
def Table.repeated : Table where
  name := "repeated"
  symbols := #[.endOfInput, ⟨"a", true, false, false, false⟩, ⟨"s", true, true, false, false⟩]
  tokenCount := 2
  fields := #[]
  productions := #[⟨⟨2⟩, 2, []⟩, ⟨⟨2⟩, 0, []⟩]
  stateCount := 3
  actions := #[some (.reduce 1), some (.reduce 1), some .accept, some (.shift 2), some (.reduce 0), some (.reduce 0)]
  gotos := #[some 1, none, none]
  lexNodes := #[.accept ⟨1⟩, .chars ⟨#[('a', 'a')], false⟩ 0]
  tokenLex := #[.none, ⟨some 1, true, false⟩]
  extras := []
  externals := []
  start := ⟨2⟩
  word := none

/-- A parser for any number of `a`. -/
def Parser.repeated : Parser := .ofLanguage (.ofValid 0 .repeated Blob.formatVersion)

theorem Parser.repeated_builtFrom : Parser.repeated.language.BuiltFrom .repeated :=
  ⟨by cbv, rfl, rfl, rfl⟩

theorem Parser.plainHost_serves (bytes : ByteArray) :
    (plainHost bytes).Serves (fun _ => True) bytes.data.toList :=
  ⟨Source.serves_ofBytes bytes, fun _ _ _ => trivial⟩

/-- A tree of two of them, the second one typed anew, with which they are parsed again. -/
theorem Parser.repeated_retyped : ∃ (tree : Tree) (next : NodeId), tree.Arises next ∧ tree.size = 2 ∧
    (Parser.repeated.parse 20 (plainHost "aa".toUTF8) () (some tree) next).isSome = true := by
  have hParses : ((Parser.repeated.parse 20 (plainHost "aa".toUTF8) () none 0).map fun first =>
      ((first.tree.edited ⟨1, 2, 2⟩ first.nextId).1.size,
        (Parser.repeated.parse 20 (plainHost "aa".toUTF8) () (some (first.tree.edited ⟨1, 2, 2⟩ first.nextId).1)
          (first.tree.edited ⟨1, 2, 2⟩ first.nextId).2).isSome)) = some (2, true) := by decide +kernel
  obtain ⟨first, hFirst, hAgain⟩ := Option.map_eq_some_iff.mp hParses
  obtain ⟨hSize, hSome⟩ := Prod.mk.inj hAgain
  have hArises := Tree.Arises.parsed repeated_builtFrom (plainHost_serves _) trivial
    (fun _ hTree => absurd hTree (Option.not_mem_none _)) hFirst
  exact ⟨_, _, hArises.edited ⟨1, 2, 2⟩, hSize, hSome⟩

section Parses

variable {p : Parser} {g : Grammar} (hBuilt : p.language.BuiltFrom g) {host : Host σ} {Ok : σ → Prop} {bytes : List UInt8}
  (hServes : host.Serves Ok bytes) {input : σ} (hInput : Ok input) {old : Option Tree} {next : NodeId} {limit : Nat}
  {parsed : Parser.Parsed σ}
include hBuilt hServes hInput

theorem parse_sound (hOld : ∀ tree ∈ old, tree.Arises next) (h : p.parse limit host input old next = some parsed) :
    parsed.tree.root.All Sound ∧ (bytes.length < 2 ^ 32 → bytes.length ≤ parsed.tree.size) := by
  have hWhole := Parser.parse_whole ((old.map Tree.size).getD 0) hBuilt hServes hInput (fun tree hTree => by
    obtain rfl := Option.mem_def.mp hTree
    exact ⟨(hOld tree hTree).former, Nat.le_max_right _ _⟩) h
  exact ⟨hWhole.nodes.sound, fun hShort => hWhole.length_le fun _ => hShort⟩

theorem parse_size (hShort : bytes.length < 2 ^ 32) (hOld : ∀ tree ∈ old, tree.Arises next ∧ tree.size = bytes.length)
    (h : p.parse limit host input old next = some parsed) : parsed.tree.size = bytes.length := by
  have hWhole := Parser.parse_whole bytes.length hBuilt hServes hInput
    (fun tree hTree => ⟨(hOld tree hTree).1.former, (hOld tree hTree).2 ▸ Nat.le_max_left _ _⟩) h
  have hSize := hWhole.size_le
  rw [Nat.max_self] at hSize
  exact Nat.le_antisymm hSize (hWhole.length_le fun _ => hShort)

/-- The root is as large as the text, at every node the children stand one after the other from its start to its end,
and nothing is flagged as touched by an edit. -/
theorem parse_covers (hShort : bytes.length < 2 ^ 32) (hOld : ∀ tree ∈ old, tree.Arises next ∧ tree.size = bytes.length)
    (h : p.parse limit host input old next = some parsed) :
    parsed.tree.size = bytes.length ∧ parsed.tree.root.All fun info children =>
      info.offsets = runningSums 0 (children.map size) ∧
      (children ≠ [] → info.size = totalOf size children) ∧ info.hasChanges = false := by
  obtain ⟨hNodes, _⟩ := parse_sound hBuilt hServes hInput (fun tree hTree => (hOld tree hTree).1) h
  refine ⟨parse_size hBuilt hServes hInput hShort hOld h, hNodes.mono fun info children hSound => ?_⟩
  exact ⟨hSound.offsets, hSound.size, hSound.unchanged⟩

omit hBuilt hServes hInput in
/-- Two of them, parsed again after the second one was typed anew. -/
theorem repeated_covers : ∃ (tree : Tree) (next : NodeId) (parsed : Parser.Parsed Unit),
    tree.Arises next ∧ tree.size = 2 ∧
    Parser.repeated.parse 20 (Parser.plainHost "aa".toUTF8) () (some tree) next = some parsed ∧
    parsed.tree.size = 2 ∧ parsed.tree.root.All fun info children =>
      info.offsets = runningSums 0 (children.map size) ∧
      (children ≠ [] → info.size = totalOf size children) ∧ info.hasChanges = false := by
  obtain ⟨tree, next, hArises, hSize, hSome⟩ := Parser.repeated_retyped
  obtain ⟨parsed, hParsed⟩ := Option.isSome_iff_exists.mp hSome
  refine ⟨tree, next, parsed, hArises, hSize, hParsed, ?_⟩
  refine parse_covers Parser.repeated_builtFrom (Parser.plainHost_serves _) trivial (by decide) (fun old hOld => ?_) hParsed
  obtain rfl := Option.some.inj hOld
  exact ⟨hArises, hSize⟩

end Parses

/-- The parser for any number of `a`, whose parses can be cancelled. -/
def Parser.cancellable : Parser := { Parser.repeated with options := { cancellable := true } }

end Reparse
