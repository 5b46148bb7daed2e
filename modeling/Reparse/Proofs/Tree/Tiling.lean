import Mathlib
import Reparse.Tree.Subtree
/-!
# Subtrees tiled by their children

`Subtree.All P` says that `P` holds at every node. The nodes that a parse builds are `Sound`: the
children tile the node, nothing in them was touched by an edit, and what a child depends on lies within
what the node depends on.
-/
namespace Reparse
namespace Subtree

/-- Induction over the nodes, children first. -/
@[elab_as_elim]
theorem inductionOn {motive : Subtree → Prop}
    (node : ∀ info children, (∀ c ∈ children, motive c) → motive (.node info children)) :
    ∀ s, motive s
  | .node info children => node info children fun c _ => inductionOn node c

@[simp] theorem info_node (info : NodeInfo) (children : List Subtree) : (node info children).info = info := rfl

@[simp] theorem children_node (info : NodeInfo) (children : List Subtree) :
    (node info children).children = children := rfl

theorem node_eta (s : Subtree) : node s.info s.children = s := by
  cases s
  rfl

@[simp] theorem info_update (s : Subtree) (f : NodeInfo → NodeInfo) : (s.update f).info = f s.info := rfl

@[simp] theorem children_update (s : Subtree) (f : NodeInfo → NodeInfo) :
    (s.update f).children = s.children := rfl

/-! ## Every node -/

/-- `P` holds at every node. -/
inductive All (P : NodeInfo → List Subtree → Prop) : Subtree → Prop
  | node {info : NodeInfo} {children : List Subtree} :
    P info children → (∀ c ∈ children, All P c) → All P (.node info children)

variable {P Q : NodeInfo → List Subtree → Prop} {s : Subtree}

theorem all_iff : s.All P ↔ P s.info s.children ∧ ∀ c ∈ s.children, c.All P := by
  constructor
  · rintro ⟨h, hChildren⟩
    exact ⟨h, hChildren⟩
  · intro h
    rw [← node_eta s]
    exact .node h.1 h.2

theorem All.here (h : s.All P) : P s.info s.children := (all_iff.mp h).1

theorem All.child (h : s.All P) : ∀ c ∈ s.children, c.All P := (all_iff.mp h).2

theorem All.mono (h : s.All P) (hPQ : ∀ info children, P info children → Q info children) :
    s.All Q := by
  induction h with
  | node h _ ih => exact .node (hPQ _ _ h) ih

theorem All.and (hP : s.All P) (hQ : s.All Q) :
    s.All fun info children => P info children ∧ Q info children := by
  induction hP with
  | node h _ ih => exact .node ⟨h, hQ.here⟩ fun c hc => ih c hc (hQ.child c hc)

/-- What holds at a node after a change of what it records. -/
theorem All.update {f : NodeInfo → NodeInfo} (h : s.All P) (hf : P (f s.info) s.children) :
    (s.update f).All P :=
  .node hf h.child

/-! ## Sums of sizes -/

@[simp] theorem totalOf_nil (f : Subtree → Nat) : totalOf f [] = 0 := rfl

@[simp] theorem totalOf_cons (f : Subtree → Nat) (c : Subtree) (rest : List Subtree) :
    totalOf f (c :: rest) = f c + totalOf f rest := rfl

@[simp] theorem totalOf_append (f : Subtree → Nat) (a b : List Subtree) :
    totalOf f (a ++ b) = totalOf f a + totalOf f b := by
  induction a with
  | nil => simp
  | cons c rest ih => simp [ih, Nat.add_assoc]

/-- Subtrees with their starts, the first one starting at `start`. -/
def laid (start : Nat) : List Subtree → List (Nat × Subtree)
  | [] => []
  | c :: rest => (start, c) :: laid (start + c.size) rest

theorem length_runningSums (start : Nat) (sizes : List Nat) : (runningSums start sizes).length = sizes.length := by
  induction sizes generalizing start with
  | nil => rfl
  | cons n rest ih => rw [runningSums, List.length_cons, ih, List.length_cons]

theorem zip_runningSums (start : Nat) (children : List Subtree) :
    (runningSums start (children.map size)).zip children = laid start children := by
  induction children generalizing start with
  | nil => rfl
  | cons c rest ih => simp [runningSums, laid, ih]

theorem laid_append (start : Nat) (a b : List Subtree) :
    laid start (a ++ b) = laid start a ++ laid (start + totalOf size a) b := by
  induction a generalizing start with
  | nil => rfl
  | cons c rest ih => rw [List.cons_append, laid, laid, ih, totalOf_cons, List.cons_append, Nat.add_assoc]

theorem length_laid (start : Nat) (children : List Subtree) :
    (laid start children).length = children.length := by
  induction children generalizing start with
  | nil => rfl
  | cons c rest ih => simp [laid, ih]

theorem mem_of_mem_laid {start : Nat} {children : List Subtree} {entry : Nat × Subtree}
    (h : entry ∈ laid start children) : entry.2 ∈ children := by
  rw [← zip_runningSums] at h
  exact (List.of_mem_zip h).2

/-- A child lies between the start of the first one and the end of the last one. -/
theorem within_of_mem_laid {start : Nat} {children : List Subtree} {entry : Nat × Subtree}
    (h : entry ∈ laid start children) :
    start ≤ entry.1 ∧ entry.1 + entry.2.size ≤ start + totalOf size children := by
  induction children generalizing start with
  | nil => cases h
  | cons c rest ih =>
    rcases List.mem_cons.mp h with rfl | h
    · simp
    · have := ih h
      simp only [totalOf_cons]
      omega

theorem window_le_furthestFrom {start : Nat} {children : List Subtree} {entry : Nat × Subtree}
    (h : entry ∈ laid start children) :
    entry.1 + entry.2.size + entry.2.lookahead ≤ furthestFrom start children := by
  induction children generalizing start with
  | nil => cases h
  | cons c rest ih =>
    rcases List.mem_cons.mp h with rfl | h
    · exact Nat.le_max_left _ _
    · exact Nat.le_trans (ih h) (Nat.le_max_right _ _)

/-! ## Tilings -/

/-- The children stand one after the other from the start of the node to its end. A leaf has a size of
its own. -/
structure Tiled (info : NodeInfo) (children : List Subtree) : Prop where
  offsets : info.offsets = runningSums 0 (children.map size)
  size : children ≠ [] → info.size = totalOf size children

/-- A node as a parse builds it. -/
structure Sound (info : NodeInfo) (children : List Subtree) : Prop extends Tiled info children where
  unchanged : info.hasChanges = false
  windows : ∀ entry ∈ laid 0 children,
    entry.1 + entry.2.size + entry.2.lookahead ≤ info.size + info.lookahead

theorem All.unchanged (h : s.All Sound) : s.hasChanges = false := h.here.unchanged

/-- What a change of a sound node may not touch; its lookahead may grow. -/
theorem Sound.congr {info info' : NodeInfo} {children : List Subtree} (h : Sound info children)
    (hOffsets : info'.offsets = info.offsets) (hSize : info'.size = info.size)
    (hChanges : info'.hasChanges = info.hasChanges) (hLookahead : info.lookahead ≤ info'.lookahead) :
    Sound info' children where
  offsets := hOffsets.trans h.offsets
  size hNonempty := hSize.trans (h.size hNonempty)
  unchanged := hChanges.trans h.unchanged
  windows entry hEntry := by
    have := h.windows entry hEntry
    omega

theorem All.withLookahead (h : s.All Sound) (bytes : Nat) : (s.withLookahead bytes).All Sound :=
  h.update (h.here.congr rfl rfl rfl (Nat.le_max_left _ _))

@[simp] theorem size_withLookahead (s : Subtree) (bytes : Nat) : (s.withLookahead bytes).size = s.size := rfl

/-- A subtree without children is sound as long as no edit touched it. -/
theorem all_sound_leaf {info : NodeInfo} (hOffsets : info.offsets = [])
    (hChanges : info.hasChanges = false) : (node info []).All Sound := by
  refine .node ⟨⟨hOffsets, fun h => absurd rfl h⟩, hChanges, ?_⟩ ?_
  · intro entry h
    cases h
  · intro c h
    cases h

section Building

variable (l : Language) (id : NodeId) (symbol : Symbol) (production : ProductionId) (state : StateId)
  {children : List Subtree}

@[simp] theorem size_ofChildren :
    (ofChildren l id symbol children production state).size = totalOf size children := rfl

@[simp] theorem children_ofChildren :
    (ofChildren l id symbol children production state).children = children := rfl

theorem sound_ofChildren (h : ∀ c ∈ children, c.hasChanges = false) :
    Sound (ofChildren l id symbol children production state).info children where
  offsets := rfl
  size _ := rfl
  unchanged := by simpa [ofChildren] using h
  windows entry hEntry := by
    have := window_le_furthestFrom hEntry
    simp only [ofChildren, info_node]
    omega

end Building

end Subtree
end Reparse
