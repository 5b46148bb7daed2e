import Reparse.Proofs.Tree.Balanced
import Mathlib
/-!
# The nodes of subtrees

`nodes` are the nodes of a subtree, each as often as it occurs. Edits and balancing take no node twice: what
they make consists of nodes that were there, each at most as often as before, and of new ones, which have
numbers of their own. This is `Renews`, and by it no two nodes of a tree have one number.
-/
namespace Reparse
namespace Subtree

mutual

/-- The nodes of a subtree, itself included. -/
def nodes : Subtree → Multiset Subtree
  | node info children => node info children ::ₘ nodesOf children

def nodesOf : List Subtree → Multiset Subtree
  | [] => 0
  | c :: rest => nodes c + nodesOf rest

end

variable {s c d x : Subtree} {children : List Subtree}

theorem nodes_eq (s : Subtree) : s.nodes = s ::ₘ nodesOf s.children := by
  cases s
  rw [nodes]
  rfl

@[simp] theorem nodesOf_nil : nodesOf [] = 0 := by rw [nodesOf]

@[simp] theorem nodesOf_cons (c : Subtree) (rest : List Subtree) : nodesOf (c :: rest) = c.nodes + nodesOf rest := by
  rw [nodesOf]

@[simp] theorem nodesOf_append (a b : List Subtree) : nodesOf (a ++ b) = nodesOf a + nodesOf b := by
  induction a with
  | nil => simp
  | cons c rest ih => simp [ih, add_assoc]

theorem self_mem_nodes (s : Subtree) : s ∈ s.nodes := by
  rw [nodes_eq]
  exact Multiset.mem_cons_self _ _

theorem nodes_le_nodesOf (h : c ∈ children) : c.nodes ≤ nodesOf children := by
  induction children with
  | nil => cases h
  | cons first rest ih =>
    rw [nodesOf_cons]
    rcases List.mem_cons.mp h with rfl | h
    · exact Multiset.le_add_right _ _
    · exact (ih h).trans (Multiset.le_add_left _ _)

theorem nodesOf_le_nodes (s : Subtree) : nodesOf s.children ≤ s.nodes := by
  rw [nodes_eq]
  exact Multiset.le_cons_self _ _

theorem nodes_le_of_child (h : c ∈ s.children) : c.nodes ≤ s.nodes :=
  (nodes_le_nodesOf h).trans (nodesOf_le_nodes s)

theorem mem_nodesOf : x ∈ nodesOf children ↔ ∃ c ∈ children, x ∈ c.nodes := by
  induction children with
  | nil => simp
  | cons c rest ih => simp [ih]

theorem nodesOf_zip_le (offsets : List Nat) (children : List Subtree) :
    nodesOf ((offsets.zip children).map Prod.snd) ≤ nodesOf children := by
  induction children generalizing offsets with
  | nil => simp
  | cons c rest ih =>
    cases offsets with
    | nil => simp
    | cons offset offsets =>
      rw [List.zip_cons_cons, List.map_cons, nodesOf_cons, nodesOf_cons]
      exact Multiset.add_le_add_left (ih offsets)

theorem nodes_le_of_at? {start p : Nat} {path : List Nat} (h : s.at? start path = some (p, d)) : d.nodes ≤ s.nodes := by
  induction path generalizing s start with
  | nil =>
    obtain ⟨rfl, rfl⟩ := Prod.mk.inj (Option.some.inj h)
    exact le_refl _
  | cons i path ih =>
    rw [at?, Option.bind_eq_some_iff] at h
    obtain ⟨entry, hEntry, h⟩ := h
    exact (ih h).trans (nodes_le_of_child (List.of_mem_zip (List.mem_of_getElem? hEntry)).2)

/-! ## New nodes -/

/-- From some nodes others are built, with numbers from `a` up to `b`: what was there is taken at most once. -/
structure Renews (a b : NodeId) (old new : Multiset Subtree) : Prop where
  le : a ≤ b
  made : ∃ made : Multiset Subtree, new ≤ old + made ∧ made.map Subtree.id ≤ Multiset.Ico a b

namespace Renews

variable {a b c : NodeId} {old new old' new' : Multiset Subtree}

theorem of_le (hLe : a ≤ b) (h : new ≤ old) : Renews a b old new := ⟨hLe, 0, by simpa using h, Multiset.zero_le _⟩

theorem refl (a : NodeId) (old : Multiset Subtree) : Renews a a old old := of_le (Nat.le_refl _) (le_refl _)

theorem mono (h : Renews a b old new) (hOld : old ≤ old') (hNew : new' ≤ new) : Renews a b old' new' := by
  obtain ⟨hLe, made, hMade, hIds⟩ := h
  exact ⟨hLe, made, hNew.trans (hMade.trans (Multiset.add_le_add_right hOld)), hIds⟩

theorem add (h : Renews a b old new) (h' : Renews b c old' new') : Renews a c (old + old') (new + new') := by
  obtain ⟨hLe, made, hMade, hIds⟩ := h
  obtain ⟨hLe', made', hMade', hIds'⟩ := h'
  refine ⟨hLe.trans hLe', made + made', ?_, ?_⟩
  · calc new + new' ≤ old + made + (old' + made') := add_le_add hMade hMade'
      _ = old + old' + (made + made') := by abel
  · rw [Multiset.map_add, ← Multiset.Ico_add_Ico_eq_Ico hLe hLe']
    exact add_le_add hIds hIds'

/-- Other nodes may be kept beside. -/
theorem beside {all all' : Multiset Subtree} (h : Renews a b old new) (rest : Multiset Subtree) (hOld : rest + old ≤ all)
    (hNew : all' ≤ rest + new) : Renews a b all all' :=
  ((refl a rest).add h).mono hOld hNew

theorem trans {mid : Multiset Subtree} (h : Renews a b old mid) (h' : Renews b c mid new) : Renews a c old new := by
  obtain ⟨hLe, made, hMade, hIds⟩ := h
  obtain ⟨hLe', made', hMade', hIds'⟩ := h'
  refine ⟨hLe.trans hLe', made + made', ?_, ?_⟩
  · calc new ≤ mid + made' := hMade'
      _ ≤ old + made + made' := Multiset.add_le_add_right hMade
      _ = old + (made + made') := add_assoc _ _ _
  · rw [Multiset.map_add, ← Multiset.Ico_add_Ico_eq_Ico hLe hLe']
    exact add_le_add hIds hIds'

/-- A node with the next number over what was built. -/
theorem node (h : Renews a b old (nodesOf s.children)) (hId : s.id = b) : Renews a (b + 1) old s.nodes := by
  obtain ⟨hLe, made, hMade, hIds⟩ := h
  refine ⟨Nat.le_succ_of_le hLe, s ::ₘ made, ?_, ?_⟩
  · rw [nodes_eq, Multiset.add_cons]
    exact Multiset.cons_le_cons s hMade
  · have hLast : Multiset.Ico b (b + 1) = {b} := by simp [Multiset.Ico]
    rw [Multiset.map_cons, hId, ← Multiset.Ico_add_Ico_eq_Ico hLe (Nat.le_succ b), hLast, add_comm,
      Multiset.singleton_add]
    exact Multiset.cons_le_cons b hIds

section Numbers

variable (h : Renews a b old new) (hOld : ∀ x ∈ old, x.id < a)
include h hOld

theorem lt : ∀ x ∈ new, x.id < b := by
  obtain ⟨hLe, made, hMade, hIds⟩ := h
  intro x hx
  rcases Multiset.mem_add.mp (Multiset.mem_of_le hMade hx) with hx | hx
  · exact Nat.lt_of_lt_of_le (hOld x hx) hLe
  · exact (Multiset.mem_Ico.mp (Multiset.mem_of_le hIds (Multiset.mem_map_of_mem _ hx))).2

/-- A node with an old number is an old node, and new nodes with one number are one node. -/
theorem origin : ∀ x ∈ new, x ∈ old ∨ a ≤ x.id ∧ ∀ y ∈ new, y.id = x.id → y = x := by
  obtain ⟨-, made, hMade, hIds⟩ := h
  have hMadeId {x : Subtree} (hx : x ∈ made) : a ≤ x.id :=
    (Multiset.mem_Ico.mp (Multiset.mem_of_le hIds (Multiset.mem_map_of_mem _ hx))).1
  have hDistinct : (made.map Subtree.id).Nodup := Multiset.nodup_of_le hIds (Multiset.nodup_Ico)
  intro x hx
  rcases Multiset.mem_add.mp (Multiset.mem_of_le hMade hx) with hx | hx
  · exact .inl hx
  · refine .inr ⟨hMadeId hx, fun y hy hId => ?_⟩
    rcases Multiset.mem_add.mp (Multiset.mem_of_le hMade hy) with hy | hy
    · exact absurd (hId ▸ hOld y hy) (Nat.not_lt.mpr (hMadeId hx))
    · exact Multiset.inj_on_of_nodup_map hDistinct y hy x hx hId

theorem nodup (hDistinct : (old.map Subtree.id).Nodup) : (new.map Subtree.id).Nodup := by
  obtain ⟨-, made, hMade, hIds⟩ := h
  have hAll : new.map Subtree.id ≤ old.map Subtree.id + Multiset.Ico a b := by
    refine (Multiset.map_le_map hMade).trans ?_
    rw [Multiset.map_add]
    exact Multiset.add_le_add_left hIds
  refine Multiset.nodup_of_le hAll (Multiset.nodup_add.mpr ⟨hDistinct, Multiset.nodup_Ico, ?_⟩)
  refine Multiset.disjoint_left.mpr fun hMem hNew => ?_
  obtain ⟨x, hx, rfl⟩ := Multiset.mem_map.mp hMem
  exact absurd (hOld x hx) (Nat.not_lt.mpr (Multiset.mem_Ico.mp hNew).1)

end Numbers

end Renews

/-! ## Edits -/

mutual

theorem renews_edited (e : Edit) (id : NodeId) : ∀ s : Subtree,
    Renews id (edited e id s).2 s.nodes (edited e id s).1.nodes
  | .node info children => by
    rw [edited]
    have hChildren := renews_editedAmong e false id info.offsets children
    exact (hChildren.mono (nodesOf_le_nodes (node info children)) (le_refl _)).node rfl

theorem renews_editedAmong (e : Edit) (absorbed : Bool) (id : NodeId) : ∀ (offsets : List Nat) (children : List Subtree),
    Renews id (editedAmong e absorbed id offsets children).2 (nodesOf children)
      (nodesOf (editedAmong e absorbed id offsets children).1)
  | offset :: offsets, c :: rest => by
    rw [editedAmong]
    split
    · rw [nodesOf_cons, nodesOf_cons]
      exact (renews_edited (share e absorbed offset c) id c).add (renews_editedAmong e _ _ offsets rest)
    · rw [nodesOf_cons, nodesOf_cons]
      exact (Renews.refl id c.nodes).add (renews_editedAmong e absorbed id offsets rest)
  | [], _ => by
    rw [editedAmong]
    · exact .of_le (Nat.le_refl _) (by simp)
    · simp
  | _ :: _, [] => by
    rw [editedAmong]
    · exact .refl _ _
    · simp

end

/-! ## Balancing -/

/-- The node with the last number stands over what was built before it. -/
structure Crowns (a b : NodeId) (old : Multiset Subtree) (s : Subtree) : Prop where
  last : s.id + 1 = b
  below : Renews a s.id old (nodesOf s.children)

theorem Crowns.renews {a b : NodeId} {old : Multiset Subtree} (h : Crowns a b old s) : Renews a b old s.nodes :=
  h.last ▸ h.below.node rfl

theorem Crowns.withLookahead {a b : NodeId} {old : Multiset Subtree} (h : Crowns a b old s) (bytes : Nat) :
    Crowns a b old (s.withLookahead bytes) :=
  ⟨h.last, h.below⟩

/-- A chain built anew has its pieces below new nodes, the top one with the last number. -/
theorem build_renews (c : Chain) {m : Chain.Maker} (weights : Array Nat) {lo hi : Nat} (leading trailing : List Subtree)
    (hLo : lo < hi) (hOne : lo + 1 = hi → leading = [] ∧ trailing = []) (id : NodeId) :
    let old := nodesOf (leading ++ c.span lo (hi - lo) ++ trailing)
    let built := c.build m weights lo hi leading trailing id
    Renews id built.2 old built.1.nodes ∧ (lo + 1 < hi → Crowns id built.2 old built.1) := by
  fun_induction Chain.build m c weights lo hi leading trailing id with
  | case1 lo hi leading trailing id _ _ split hBounds left id' hLeft right id'' hRight between children ihLeft ihRight =>
    obtain ⟨hSplit, hBelow⟩ : lo < split ∧ split < hi := ⟨hBounds.1, hBounds.2⟩
    obtain ⟨hFirst, -⟩ := ihLeft hSplit fun _ => ⟨rfl, rfl⟩
    obtain ⟨hSecond, -⟩ := ihRight hBelow fun _ => ⟨rfl, rfl⟩
    rw [hLeft] at hFirst
    rw [hRight] at hSecond
    simp only [List.nil_append, List.append_nil] at hFirst hSecond
    have hChildren : Renews id id'' (nodesOf (leading ++ c.span lo (hi - lo) ++ trailing)) (nodesOf children) := by
      have hPieces := ((((Renews.refl id (nodesOf leading)).add hFirst).add (Renews.refl id' (nodesOf (c.gap (split - 1))))).add
        hSecond).add (Renews.refl id'' (nodesOf trailing))
      have hNew : nodesOf children =
          nodesOf leading + left.nodes + nodesOf (c.gap (split - 1)) + right.nodes + nodesOf trailing := by
        simp [children, between, Chain.gap, add_assoc]
      rw [c.span_split hSplit hBelow, hNew]
      simpa [add_assoc] using hPieces
    have hTop : Crowns id (id'' + 1) (nodesOf (leading ++ c.span lo (hi - lo) ++ trailing))
        (ofChildren m.language id'' m.symbol children m.production
          ((c.items[lo]?).getD default).info.state) := ⟨rfl, hChildren⟩
    exact ⟨hTop.renews, fun _ => hTop⟩
  | case2 lo hi leading trailing id first hDone =>
    obtain ⟨rfl, rfl⟩ := hOne (by omega)
    refine ⟨?_, fun h => absurd h hDone⟩
    rw [c.span_one hLo hDone]
    simpa [first, Chain.item] using Renews.refl id first.nodes

theorem rebuildChain_renews {l : Language} {info : NodeInfo} {pieces : List Subtree} {old : Multiset Subtree} {a id : NodeId}
    (hNode : Renews a id old (node info children).nodes) (hPieces : Renews a id old (nodesOf pieces)) :
    Renews a (rebuildChain l info children pieces id).2 old (rebuildChain l info children pieces id).1.nodes := by
  obtain ⟨-, hWhole⟩ := Chain.ofPieces_fits pieces
  rw [Chain.pieces] at hWhole
  rw [rebuildChain]
  dsimp only
  split
  · exact hNode
  next hItems =>
    have hMany : 0 + 1 < (Chain.ofPieces pieces).items.size := by omega
    have hBuilt := (build_renews (Chain.ofPieces pieces) (m := ⟨l, info.symbol, info.production⟩)
      (Chain.weights (Chain.ofPieces pieces).items.toList) (Chain.ofPieces pieces).leading (Chain.ofPieces pieces).trailing
      (Nat.lt_of_succ_lt hMany) (fun h => absurd h (Nat.ne_of_lt hMany)) id).2 hMany
    rw [Nat.sub_zero, hWhole] at hBuilt
    exact hPieces.trans (hBuilt.withLookahead _).renews

variable (b : Balancing)

mutual

theorem balanced_renews (id : NodeId) : ∀ s : Subtree, Renews id (balanced b id s).2 s.nodes (balanced b id s).1.nodes
  | .node info children => by
    have hBelow := nodesOf_le_nodes (node info children)
    rw [balanced]
    split
    · exact .refl _ _
    split
    · have hPieces := chainPieces_renews info.symbol id children
      exact rebuildChain_renews (.of_le hPieces.le (le_refl _)) (hPieces.mono hBelow (le_refl _))
    · have hChildren := balancedAll_renews id children
      dsimp only
      split
      · exact .of_le hChildren.le (le_refl _)
      · exact (hChildren.mono hBelow (le_refl _)).node rfl

theorem balancedAll_renews (id : NodeId) : ∀ children : List Subtree,
    Renews id (balancedAll b id children).2 (nodesOf children) (nodesOf (balancedAll b id children).1)
  | [] => by
    rw [balancedAll]
    exact .refl _ _
  | c :: rest => by
    rw [balancedAll, nodesOf_cons, nodesOf_cons]
    exact (balanced_renews id c).add (balancedAll_renews _ rest)

theorem chainPieces_renews (symbol : Symbol) (id : NodeId) : ∀ children : List Subtree,
    Renews id (chainPieces b symbol id children).2 (nodesOf children) (nodesOf (chainPieces b symbol id children).1)
  | [] => by
    rw [chainPieces]
    exact .refl _ _
  | .node info children :: rest => by
    rw [chainPieces, nodesOf_cons]
    dsimp only
    rw [nodesOf_append]
    refine Renews.add ?_ (chainPieces_renews symbol _ rest)
    split
    · exact (chainPieces_renews symbol id children).mono (nodesOf_le_nodes (node info children)) (le_refl _)
    · simpa using balanced_renews id (node info children)

end

end Subtree
end Reparse
