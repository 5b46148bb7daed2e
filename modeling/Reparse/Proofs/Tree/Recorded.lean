import Reparse.Proofs.Tree.Edited
/-!
# What nodes record of their children

Size, flags, first leaf and scanner state of a node are those of its children in a row. Edits leave all of them but the
size as they were.
-/
namespace Reparse

/-- What a parent records of its children in a row. -/
structure Digest where
  size : Nat
  hasError : Bool
  hasScanned : Bool
  scannerState : Option (List UInt8)
  /-- Symbol and lex mode of the first leaf. -/
  first : Option (Symbol × LexModeId)

def Digest.append (a b : Digest) : Digest where
  size := a.size + b.size
  hasError := a.hasError || b.hasError
  hasScanned := a.hasScanned || b.hasScanned
  scannerState := if b.hasScanned then b.scannerState else a.scannerState
  first := a.first <|> b.first

def NodeInfo.digest (info : NodeInfo) : Digest where
  size := info.size
  hasError := info.hasError
  hasScanned := info.hasScanned
  scannerState := info.scannerState
  first := some (info.firstSymbol, info.firstMode)

namespace Subtree

variable {l : Language} {info : NodeInfo} {children : List Subtree} {s : Subtree}

/-! ## Rows of subtrees -/

def digestOf (children : List Subtree) : Digest where
  size := totalOf size children
  hasError := children.any hasError
  hasScanned := children.any fun c => c.info.hasScanned
  scannerState := lastScannerState children
  first := children.head?.map fun c => (c.info.firstSymbol, c.info.firstMode)

theorem lastScannerState_append (a b : List Subtree) :
    lastScannerState (a ++ b) =
      if b.any fun c => c.info.hasScanned then lastScannerState b else lastScannerState a := by
  rw [lastScannerState, lastScannerState, lastScannerState, List.reverse_append, List.find?_append]
  cases hFind : b.reverse.find? fun c => c.info.hasScanned with
  | some c =>
    have hScanned : c.info.hasScanned = true := by simpa using List.find?_some hFind
    have hMem := List.mem_reverse.mp (List.mem_of_find?_eq_some hFind)
    rw [if_pos (List.any_eq_true.mpr ⟨c, hMem, hScanned⟩), Option.some_or]
  | none =>
    have hNone : (b.any fun c => c.info.hasScanned) = false := by simpa using hFind
    rw [hNone, if_neg Bool.false_ne_true, Option.none_or]

@[simp] theorem digestOf_append (a b : List Subtree) : digestOf (a ++ b) = (digestOf a).append (digestOf b) := by
  simp only [digestOf, Digest.append, totalOf_append, List.any_append, lastScannerState_append, List.head?_append]
  cases a.head? <;> rfl

theorem lastScannerState_singleton (s : Subtree) :
    lastScannerState [s] = if s.info.hasScanned then s.info.scannerState else none := by
  rw [lastScannerState, List.reverse_singleton, List.find?_singleton]
  cases s.info.hasScanned <;> rfl

theorem digestOf_cons (c : Subtree) (rest : List Subtree) :
    digestOf (c :: rest) =
      Digest.append
        { c.info.digest with scannerState := if c.info.hasScanned then c.info.scannerState else none }
        (digestOf rest) := by
  have hOne : digestOf [c] =
      { c.info.digest with scannerState := if c.info.hasScanned then c.info.scannerState else none } := by
    rw [digestOf, lastScannerState_singleton]
    simp [NodeInfo.digest, size, hasError]
  rw [← List.singleton_append, digestOf_append, hOne]

theorem digestOf_singleton (h : s.info.hasScanned = false → s.info.scannerState = none) :
    digestOf [s] = s.info.digest := by
  rw [digestOf_cons]
  cases hScanned : s.info.hasScanned with
  | true => simp [Digest.append, digestOf, NodeInfo.digest, hScanned]
  | false => simp [Digest.append, digestOf, NodeInfo.digest, hScanned, h hScanned]

/-! ## Nodes -/

/-- A node that records of its children what they are. It is an extra only as a token or an error, and a link of a
repetition only with children. -/
structure Recorded (l : Language) (info : NodeInfo) (children : List Subtree) : Prop extends Tiled info children where
  digest : children ≠ [] → info.digest =
    { digestOf children with hasError := info.symbol.isError || (digestOf children).hasError }
  shown : children ≠ [] → info.visibleChildren = totalOf (shownChildren l) children
  present : children ≠ [] → info.missing = false
  scanned : info.hasScanned = false → info.scannerState = none
  extra : info.extra = true → children = [] ∨ info.symbol = .error
  linked : l.table.binaryRepeat info.symbol = some info.production → children ≠ []

theorem recorded_leaf (hOffsets : info.offsets = []) (hScanned : info.hasScanned = info.scannerState.isSome)
    (hLinked : l.table.binaryRepeat info.symbol ≠ some info.production) : (node info []).All (Recorded l) := by
  refine .node ⟨⟨hOffsets, fun h => absurd rfl h⟩, fun h => absurd rfl h, fun h => absurd rfl h, fun h => absurd rfl h,
    fun hNot => ?_, fun _ => .inl rfl, fun h => absurd h hLinked⟩ (by simp)
  simpa [hScanned] using hNot

theorem digest_ofChildren {id : NodeId} {symbol : Symbol} {production : ProductionId} {state : StateId}
    (h : children ≠ []) : (ofChildren l id symbol children production state).info.digest =
      { digestOf children with hasError := symbol.isError || (digestOf children).hasError } := by
  obtain ⟨c, rest, rfl⟩ := List.exists_cons_of_ne_nil h
  rfl

theorem lastScannerState_eq_none (h : (children.any fun c => c.info.hasScanned) = false) :
    lastScannerState children = none := by
  have hFind : (children.reverse.find? fun c => c.info.hasScanned) = none := by simpa using h
  rw [lastScannerState, hFind, Option.bind_none]

theorem recorded_ofChildren {id : NodeId} {symbol : Symbol} {production : ProductionId} {state : StateId}
    (h : l.table.binaryRepeat symbol = some production → children ≠ []) :
    Recorded l (ofChildren l id symbol children production state).info children where
  offsets := rfl
  size _ := rfl
  digest hNonempty := digest_ofChildren hNonempty
  shown _ := rfl
  present _ := rfl
  scanned hNone := lastScannerState_eq_none hNone
  extra hExtra := absurd hExtra Bool.false_ne_true
  linked := h

/-- What a change of a node may touch. -/
theorem Recorded.congr {new : NodeInfo} (h : Recorded l info children)
    (hSame : new = { info with id := new.id, lookahead := new.lookahead, state := new.state, extra := new.extra })
    (hExtra : new.extra = true → children = [] ∨ info.symbol = .error) : Recorded l new children := by
  rw [hSame]
  exact ⟨⟨h.offsets, h.size⟩, h.digest, h.shown, h.present, h.scanned, hExtra, h.linked⟩

/-! ## Edits -/

/-- All but the size and the places of the children is as before. -/
def Retains (new old : Subtree) : Prop :=
  ∃ id size hasChanges offsets, new.info = { old.info with id, size, hasChanges, offsets }

theorem retains_edited (e : Edit) (id : NodeId) (s : Subtree) : Retains (edited e id s).1 s := by
  obtain ⟨info, children⟩ := s
  rw [edited]
  exact ⟨_, _, _, _, rfl⟩

theorem retains_editedAmong (e : Edit) (absorbed : Bool) (id : NodeId) {offsets : List Nat} {children : List Subtree}
    (h : offsets.length = children.length) :
    List.Forall₂ Retains (editedAmong e absorbed id offsets children).1 children := by
  induction children generalizing absorbed id offsets with
  | nil =>
    rw [editedAmong]
    · exact .nil
    · simp
  | cons c rest ih =>
    obtain ⟨offset, offsets, rfl⟩ := List.exists_cons_of_length_eq_add_one h
    rw [editedAmong]
    split
    · exact .cons (retains_edited _ _ c) (ih _ _ (Nat.succ_inj.mp h))
    · exact .cons ⟨_, _, _, _, rfl⟩ (ih _ _ (Nat.succ_inj.mp h))

theorem Retains.shownChildren {new old : Subtree} (h : Retains new old) : shownChildren l new = shownChildren l old := by
  obtain ⟨_, _, _, _, hInfo⟩ := h
  rw [Subtree.shownChildren, Subtree.shownChildren, symbol, symbol, hInfo]

section Retaining

variable {new old : List Subtree} (h : List.Forall₂ Retains new old)
include h

/-- What is counted by neither sizes nor places is the same after an edit. -/
theorem totalOf_retained {f : Subtree → Nat} (hf : ∀ new old, Retains new old → f new = f old) :
    totalOf f new = totalOf f old := by
  induction h with
  | nil => rfl
  | cons hHere _ ih => rw [totalOf_cons, totalOf_cons, ih, hf _ _ hHere]

theorem digestOf_retained : digestOf new = { digestOf old with size := totalOf size new } := by
  induction h with
  | nil => rfl
  | cons hHere _ ih =>
    obtain ⟨_, _, _, _, hInfo⟩ := hHere
    rw [digestOf_cons, digestOf_cons, ih, totalOf_cons, size, hInfo]
    rfl

end Retaining

theorem recorded_edited (h : Recorded l info children) {e : Edit} (he : e.Ordered) (id : NodeId) :
    Recorded l (edited e id (node info children)).1.info (edited e id (node info children)).1.children := by
  have hTiled := tiled_edited he h.toTiled id
  have hRetains : List.Forall₂ Retains (edited e id (node info children)).1.children children := by
    rw [edited]
    apply retains_editedAmong
    rw [h.offsets, length_runningSums, List.length_map]
  have hNil : (edited e id (node info children)).1.children = [] ↔ children = [] := by
    rw [← List.length_eq_zero_iff, hRetains.length_eq, List.length_eq_zero_iff]
  rw [edited] at hTiled hRetains hNil ⊢
  constructor
  · exact hTiled
  · intro hNonempty
    have hSize : e.resized info.size = _ := hTiled.size hNonempty
    rw [digestOf_retained hRetains, ← hSize]
    exact congrArg (fun d : Digest => { d with size := e.resized info.size }) (h.digest (mt hNil.mpr hNonempty))
  · intro hNonempty
    rw [totalOf_retained hRetains fun _ _ => Retains.shownChildren]
    exact h.shown (mt hNil.mpr hNonempty)
  · exact fun hNonempty => h.present (mt hNil.mpr hNonempty)
  · exact h.scanned
  · exact fun hExtra => (h.extra hExtra).imp_left hNil.mpr
  · exact fun hRepeat => mt hNil.mp (h.linked hRepeat)

theorem all_recorded_edited (h : s.All (Recorded l)) {e : Edit} (he : e.Ordered) (id : NodeId) :
    (edited e id s).1.All (Recorded l) := by
  induction s using inductionOn generalizing e id with
  | node info children ih =>
    refine all_iff.mpr ⟨recorded_edited h.here he id, fun c' hc' => ?_⟩
    obtain ⟨c, hc, rfl | ⟨e', id', he', _, rfl⟩⟩ := mem_edited he h.here.toTiled hc'
    · exact h.child _ hc
    · exact ih c hc (h.child c hc) he' id'

end Subtree
end Reparse
