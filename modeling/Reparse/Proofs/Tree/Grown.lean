import Reparse.Proofs.Tree.Edited
/-!
# The nodes of a session

The nodes that a session builds or takes over are `Grown`: sound, numbered in the order in which they were
built, and never the end of the input. What edits leave of a tree of such nodes is `Former`.
-/
namespace Reparse
namespace Subtree

variable {l : Language} {first next : NodeId} {s : Subtree} {children : List Subtree}

/-- A node as a session has it, whose own nodes are numbered from `first` on, the next one by `next`. -/
structure Grown (l : Language) (first next : NodeId) (info : NodeInfo) (children : List Subtree) : Prop
    extends Sound info children where
  id_lt : info.id < next
  ne_eof : info.symbol ≠ .eof
  /-- Only tokens and skipped input have a size without children. -/
  leaf : first ≤ info.id → children = [] → info.size = 0 ∨ l.isTerminal info.symbol = true

theorem All.sound (h : s.All (Grown l first next)) : s.All Sound := h.mono fun _ _ hGrown => hGrown.toSound

theorem Grown.mono {info : NodeInfo} {later : NodeId} (h : Grown l first next info children) (hNext : next ≤ later) :
    Grown l first later info children :=
  ⟨h.toSound, Nat.lt_of_lt_of_le h.id_lt hNext, h.ne_eof, h.leaf⟩

theorem All.later {later : NodeId} (h : s.All (Grown l first next)) (hNext : next ≤ later) :
    s.All (Grown l first later) :=
  h.mono fun _ _ hGrown => hGrown.mono hNext

theorem all_grown_leaf {info : NodeInfo} (hOffsets : info.offsets = []) (hChanges : info.hasChanges = false)
    (hId : info.id < next) (hSymbol : info.symbol ≠ .eof) (hLeaf : info.size = 0 ∨ l.isTerminal info.symbol = true) :
    (node info []).All (Grown l first next) :=
  .node ⟨(all_sound_leaf hOffsets hChanges).here, hId, hSymbol, fun _ _ => hLeaf⟩ (by simp)

section Building

variable {symbol : Symbol} (production : ProductionId) (state : StateId)

theorem all_grown_token {size lookahead : Nat} {mode : LexModeId} {scannerState : Option (List UInt8)}
    (hSymbol : symbol ≠ .eof) (hTerminal : l.isTerminal symbol = true) :
    (leaf l next symbol size lookahead state mode scannerState).All (Grown l first (next + 1)) :=
  all_grown_leaf rfl rfl (Nat.lt_succ_self _) hSymbol (.inr hTerminal)

theorem all_grown_errorLeaf {size lookahead : Nat} {mode : LexModeId} :
    (errorLeaf next size lookahead state mode).All (Grown l first (next + 1)) :=
  all_grown_leaf rfl rfl (Nat.lt_succ_self _) (by simp [leafInfo, Symbol.error, Symbol.eof]) (.inr rfl)

theorem all_grown_missingLeaf {mode : LexModeId} (hSymbol : symbol ≠ .eof) :
    (missingLeaf next symbol state mode).All (Grown l first (next + 1)) :=
  all_grown_leaf rfl rfl (Nat.lt_succ_self _) hSymbol (.inl rfl)

theorem all_grown_ofChildren (hSymbol : symbol ≠ .eof) (h : ∀ c ∈ children, c.All (Grown l first next)) :
    (ofChildren l next symbol children production state).All (Grown l first (next + 1)) := by
  refine .node ⟨sound_ofChildren l next symbol production state fun c hc => (h c hc).sound.unchanged,
    Nat.lt_succ_self _, hSymbol, fun _ hNil => .inl ?_⟩ fun c hc => (h c hc).later (Nat.le_succ _)
  rw [hNil]
  rfl

theorem all_grown_errorNode (h : ∀ c ∈ children, c.All (Grown l first next)) :
    (errorNode l next children state).All (Grown l first (next + 1)) := by
  have hNode := all_grown_ofChildren noProduction state (show Symbol.error ≠ .eof by simp [Symbol.error, Symbol.eof]) h
  exact hNode.update ⟨hNode.here.toSound.congr rfl rfl rfl (Nat.le_refl _), hNode.here.id_lt, hNode.here.ne_eof,
    hNode.here.leaf⟩

end Building

theorem All.grown_withLookahead (h : s.All (Grown l first next)) (bytes : Nat) :
    (s.withLookahead bytes).All (Grown l first next) :=
  h.update ⟨h.here.toSound.congr rfl rfl rfl (Nat.le_max_left _ _), h.here.id_lt, h.here.ne_eof, h.here.leaf⟩

/-! ## Old trees -/

/-- A node of an old tree, all of whose nodes are numbered below `next`. -/
structure Former (next : NodeId) (info : NodeInfo) (children : List Subtree) : Prop extends Kept info children where
  id_lt : info.id < next
  ne_eof : info.symbol ≠ .eof

theorem All.kept_of_former (h : s.All (Former next)) : s.All Kept := h.mono fun _ _ hFormer => hFormer.toKept

theorem All.former_later {later : NodeId} (h : s.All (Former next)) (hNext : next ≤ later) : s.All (Former later) :=
  h.mono fun _ _ hFormer => ⟨hFormer.toKept, Nat.lt_of_lt_of_le hFormer.id_lt hNext, hFormer.ne_eof⟩

/-- A tree that was grown is an old one from then on. -/
theorem All.former (h : s.All (Grown l first next)) : s.All (Former next) :=
  (h.sound.kept.and h).mono fun _ _ hNode => ⟨hNode.1, hNode.2.id_lt, hNode.2.ne_eof⟩

/-- An untouched part of an old tree is as good as grown. -/
theorem All.grown_of_former (h : s.All (Former first)) (hChanges : s.hasChanges = false) (hNext : first ≤ next) :
    s.All (Grown l first next) :=
  ((h.kept_of_former.sound_of_unchanged hChanges).and h).mono fun _ _ hNode =>
    ⟨hNode.1, Nat.lt_of_lt_of_le hNode.2.id_lt hNext, hNode.2.ne_eof,
      fun hFirst => absurd hNode.2.id_lt (Nat.not_lt.mpr hFirst)⟩

/-- A node numbered below `next` that is not the end of the input. -/
def Listed (next : NodeId) (info : NodeInfo) (_ : List Subtree) : Prop := info.id < next ∧ info.symbol ≠ .eof

theorem All.listed_later {later : NodeId} (h : s.All (Listed next)) (hNext : next ≤ later) : s.All (Listed later) :=
  h.mono fun _ _ hListed => ⟨Nat.lt_of_lt_of_le hListed.1 hNext, hListed.2⟩

mutual

/-- An edit numbers what it builds anew after all that was there. -/
theorem listed_edited (e : Edit) (id : NodeId) : ∀ s : Subtree, s.All (Listed id) →
    id ≤ (edited e id s).2 ∧ (edited e id s).1.All (Listed (edited e id s).2)
  | .node info children, h => by
    rw [edited]
    obtain ⟨hLe, hChildren⟩ := listed_editedAmong e false id info.offsets children h.child
    refine ⟨Nat.le_succ_of_le hLe, .node ⟨Nat.lt_succ_self _, h.here.2⟩ fun c hc => ?_⟩
    exact (hChildren c hc).listed_later (Nat.le_succ _)

theorem listed_editedAmong (e : Edit) (absorbed : Bool) (id : NodeId) :
    ∀ (offsets : List Nat) (children : List Subtree), (∀ c ∈ children, c.All (Listed id)) →
      id ≤ (editedAmong e absorbed id offsets children).2 ∧
        ∀ c ∈ (editedAmong e absorbed id offsets children).1, c.All (Listed (editedAmong e absorbed id offsets children).2)
  | offset :: offsets, c :: rest, h => by
    have hRest (id' : NodeId) (hId : id ≤ id') : ∀ c ∈ rest, c.All (Listed id') := fun c hc =>
      (h c (List.mem_cons_of_mem _ hc)).listed_later hId
    rw [editedAmong]
    split
    · obtain ⟨hLe, hHere⟩ := listed_edited (share e absorbed offset c) id c (h c List.mem_cons_self)
      obtain ⟨hLe', hThere⟩ := listed_editedAmong e (absorbed || e.start ≤ offset + c.size)
        (edited (share e absorbed offset c) id c).2 offsets rest (hRest _ hLe)
      refine ⟨Nat.le_trans hLe hLe', fun c' hc' => ?_⟩
      rcases List.mem_cons.mp hc' with rfl | hc'
      · exact hHere.listed_later hLe'
      · exact hThere c' hc'
    · obtain ⟨hLe, hThere⟩ := listed_editedAmong e absorbed id offsets rest (hRest _ (Nat.le_refl _))
      refine ⟨hLe, fun c' hc' => ?_⟩
      rcases List.mem_cons.mp hc' with rfl | hc'
      · exact (h c' List.mem_cons_self).listed_later hLe
      · exact hThere c' hc'
  | [], _, _ => by
    rw [editedAmong]
    · exact ⟨Nat.le_refl _, by simp⟩
    · simp
  | _ :: _, [], _ => by
    rw [editedAmong]
    · exact ⟨Nat.le_refl _, by simp⟩
    · simp

end

theorem former_edited (h : s.All (Former next)) {e : Edit} (he : e.Ordered) (hTouched : e.start ≤ s.size + s.lookahead) :
    next ≤ (edited e next s).2 ∧ (edited e next s).1.All (Former (edited e next s).2) := by
  obtain ⟨hLe, hListed⟩ := listed_edited e next s (h.mono fun _ _ hFormer => ⟨hFormer.id_lt, hFormer.ne_eof⟩)
  exact ⟨hLe, ((kept_edited h.kept_of_former he hTouched next).and hListed).mono fun _ _ hNode =>
    ⟨hNode.1, hNode.2.1, hNode.2.2⟩⟩

end Subtree
end Reparse
