import Reparse.Lex.Match
import Mathlib
/-!
# Ways through a token automaton

`nodes.Leads a text b` says that some way from node `a` to node `b` consumes `text`. Following splits with
marks, as `addNodes` does, collects exactly the nodes that are led to without consuming anything,
provided that no node is marked when the collection begins.
-/
namespace Reparse
namespace LexArena

inductive Leads (nodes : LexArena) : UInt32 → List Char → UInt32 → Prop
  | refl (a : UInt32) : Leads nodes a [] a
  | left {a b c d : UInt32} {text : List Char} :
    nodes[a.toNat]? = some (.split b c) → Leads nodes b text d → Leads nodes a text d
  | right {a b c d : UInt32} {text : List Char} :
    nodes[a.toNat]? = some (.split b c) → Leads nodes c text d → Leads nodes a text d
  | chars {a b d : UInt32} {cls : CharClass} {x : Char} {text : List Char} :
    nodes[a.toNat]? = some (.chars cls b) → cls.contains x = true → Leads nodes b text d →
      Leads nodes a (x :: text) d

variable {nodes : LexArena}

theorem Leads.append {a b c : UInt32} {front back : List Char} (hFront : nodes.Leads a front b)
    (hBack : nodes.Leads b back c) : nodes.Leads a (front ++ back) c := by
  induction hFront with
  | refl => exact hBack
  | left hNode _ ih => exact .left hNode (ih hBack)
  | right hNode _ ih => exact .right hNode (ih hBack)
  | chars hNode hx _ ih => exact .chars hNode hx (ih hBack)

/-- The node that consumes the first character after `front`, and what it leads to. -/
theorem Leads.at_char {a c : UInt32} {front back : List Char} {x : Char}
    (h : nodes.Leads a (front ++ x :: back) c) :
    ∃ b cls next, nodes.Leads a front b ∧ nodes[b.toNat]? = some (.chars cls next) ∧ cls.contains x = true ∧
      nodes.Leads next back c := by
  generalize hText : front ++ x :: back = text at h
  induction h generalizing front with
  | refl => simp at hText
  | left hNode _ ih =>
    obtain ⟨b, cls, next, hFront, hRest⟩ := ih hText
    exact ⟨b, cls, next, .left hNode hFront, hRest⟩
  | right hNode _ ih =>
    obtain ⟨b, cls, next, hFront, hRest⟩ := ih hText
    exact ⟨b, cls, next, .right hNode hFront, hRest⟩
  | @chars a b d cls y text hNode hy hLeads ih =>
    cases front with
    | nil =>
      obtain ⟨rfl, rfl⟩ := List.cons.inj hText
      exact ⟨a, cls, b, .refl a, hNode, hy, hLeads⟩
    | cons z front =>
      obtain ⟨rfl, hRest⟩ := List.cons.inj hText
      obtain ⟨b, cls, next, hFront, hRest⟩ := ih hRest
      exact ⟨b, cls, next, .chars hNode hy hFront, hRest⟩

/-- Nodes that a set holds: all but splits. -/
def IsStop (nodes : LexArena) (n : UInt32) : Prop :=
  ∃ node, nodes[n.toNat]? = some node ∧ ∀ a b, node ≠ .split a b

theorem isConsuming_iff {n : UInt32} : nodes.isConsuming n = true ↔ ∃ cls next, nodes[n.toNat]? = some (.chars cls next) := by
  rw [isConsuming]
  split
  next cls next h => simp [h]
  next hNot => simpa using fun cls next h => hNot cls next h

theorem isStop_of_consuming {n : UInt32} (h : nodes.isConsuming n = true) : nodes.IsStop n := by
  obtain ⟨cls, next, hNode⟩ := isConsuming_iff.mp h
  exact ⟨_, hNode, by simp⟩

theorem accepted?_eq_some {n : UInt32} {s : Symbol} : nodes.accepted? n = some s ↔ nodes[n.toNat]? = some (.accept s) := by
  rw [accepted?]
  split
  next s' h => simp [h]
  next hNot => simpa using fun h => hNot s h

theorem isStop_of_accepted {n : UInt32} {s : Symbol} (h : nodes.accepted? n = some s) : nodes.IsStop n :=
  ⟨_, accepted?_eq_some.mp h, by simp⟩

theorem after?_eq_some {n next : UInt32} {x : Char} :
    nodes.after? x n = some next ↔ ∃ cls, nodes[n.toNat]? = some (.chars cls next) ∧ cls.contains x = true := by
  rw [after?]
  split
  next cls next' h =>
    by_cases hx : cls.contains x = true <;> simp [h, hx]
  next hNot => simpa using fun cls h => absurd h (hNot cls next)

end LexArena

namespace LexMarks

variable {m : LexMarks}

@[simp] theorem generation_mark (m : LexMarks) (n : UInt32) : (m.mark n).generation = m.generation := rfl

@[simp] theorem size_mark (m : LexMarks) (n : UInt32) : (m.mark n).marks.size = m.marks.size := by simp [mark]

theorem isMarked_mark {n k : UInt32} :
    (m.mark n).isMarked k = true ↔ (k = n ∧ n.toNat < m.marks.size) ∨ m.isMarked k = true := by
  simp only [isMarked, mark, Array.getElem?_setIfInBounds, beq_iff_eq, UInt32.toNat_inj]
  by_cases hkn : n = k
  · subst hkn
    by_cases hn : n.toNat < m.marks.size <;> simp [hn]
  · simp [hkn, Ne.symm hkn]

/-- No mark is newer than the generation. -/
def Bounded (m : LexMarks) : Prop := ∀ (i : Nat) (v : UInt32), m.marks[i]? = some v → v.toNat ≤ m.generation.toNat

theorem Bounded.mark (h : m.Bounded) (n : UInt32) : (m.mark n).Bounded := by
  intro i v hv
  simp only [LexMarks.mark, Array.getElem?_setIfInBounds] at hv
  split at hv
  · split at hv
    · obtain rfl := Option.some.inj hv
      exact Nat.le_refl _
    · cases hv
  · exact h i v hv

theorem Bounded.renew (h : m.Bounded) (hRoom : m.generation.toNat + 1 < 2 ^ 32) :
    m.renew.Bounded ∧ m.renew.generation.toNat = m.generation.toNat + 1 ∧ ∀ n, m.renew.isMarked n = false := by
  have hNext : (m.generation + 1).toNat = m.generation.toNat + 1 := by
    rw [UInt32.toNat_add]
    exact Nat.mod_eq_of_lt hRoom
  refine ⟨fun i v hv => ?_, hNext, fun n => ?_⟩
  · change v.toNat ≤ (m.generation + 1).toNat
    have := h i v hv
    omega
  · rw [Bool.eq_false_iff]
    intro hMarked
    rw [isMarked, beq_iff_eq] at hMarked
    have hLe := h n.toNat _ hMarked
    change (m.generation + 1).toNat ≤ _ at hLe
    omega

theorem bounded_ofSize (nodes : Nat) : (ofSize nodes).Bounded := by
  intro i v hv
  simp only [ofSize, Array.getElem?_replicate] at hv
  split at hv
  · rw [← Option.some.inj hv]
    exact Nat.le_refl _
  · cases hv

end LexMarks

namespace LexArena

variable {nodes : LexArena}

/-- A collection under way: what is marked or pending is led to by a root; whatever the roots and the
marked splits lead to is marked or pending; the set holds the marked nodes other than splits. -/
structure Closing (nodes : LexArena) (root : UInt32 → Prop) (todo : List UInt32) (m : LexMarks)
    (set : Array UInt32) : Prop where
  size_eq : m.marks.size = nodes.size
  marked : ∀ n, m.isMarked n = true → ∃ r, root r ∧ nodes.Leads r [] n
  led : ∀ n ∈ todo, ∃ r, root r ∧ nodes.Leads r [] n
  roots : ∀ r, root r → r.toNat < nodes.size → m.isMarked r = true ∨ r ∈ todo
  splits : ∀ n a b, m.isMarked n = true → nodes[n.toNat]? = some (.split a b) →
    ∀ c, c = a ∨ c = b → c.toNat < nodes.size → m.isMarked c = true ∨ c ∈ todo
  mem_set : ∀ n, n ∈ set ↔ m.isMarked n = true ∧ nodes.IsStop n

section Closing

variable {root : UInt32 → Prop} {n : UInt32} {todo : List UInt32} {m : LexMarks} {set : Array UInt32}

/-- A node that is marked, or that does not exist, needs no more attention. -/
theorem Closing.skip (h : nodes.Closing root (n :: todo) m set)
    (hDone : m.isMarked n = true ∨ nodes.size ≤ n.toNat) : nodes.Closing root todo m set := by
  have hStill (c : UInt32) (hc : m.isMarked c = true ∨ c ∈ n :: todo) (hBound : c.toNat < nodes.size) :
      m.isMarked c = true ∨ c ∈ todo := by
    rcases hc with hc | hc
    · exact .inl hc
    · rcases List.mem_cons.mp hc with rfl | hc
      · exact .inl (hDone.resolve_right (by omega))
      · exact .inr hc
  exact ⟨h.size_eq, h.marked, fun k hk => h.led k (List.mem_cons_of_mem _ hk),
    fun r hr hBound => hStill r (h.roots r hr hBound) hBound,
    fun k a b hk hNode c hc hBound => hStill c (h.splits k a b hk hNode c hc hBound) hBound, h.mem_set⟩

/-- A node is marked, its targets become pending if it is a split, and it is collected if it is not. -/
theorem Closing.visit (h : nodes.Closing root (n :: todo) m set) (hn : n.toNat < nodes.size)
    (more : List UInt32) (set' : Array UInt32)
    (hMore : ∀ c, c ∈ more ↔ ∃ a b, nodes[n.toNat]? = some (.split a b) ∧ (c = a ∨ c = b))
    (hSet : ∀ k, k ∈ set' ↔ k ∈ set ∨ (k = n ∧ nodes.IsStop n)) :
    nodes.Closing root (more ++ todo) (m.mark n) set' := by
  have hMarked (k : UInt32) : (m.mark n).isMarked k = true ↔ k = n ∨ m.isMarked k = true := by
    rw [LexMarks.isMarked_mark, h.size_eq]
    simp [hn]
  have hStill (c : UInt32) (hc : m.isMarked c = true ∨ c ∈ n :: todo) :
      (m.mark n).isMarked c = true ∨ c ∈ more ++ todo := by
    rw [hMarked]
    rcases hc with hc | hc
    · exact .inl (.inr hc)
    · rcases List.mem_cons.mp hc with rfl | hc
      · exact .inl (.inl rfl)
      · exact .inr (List.mem_append_right _ hc)
  obtain ⟨r, hr, hLeads⟩ := h.led n List.mem_cons_self
  refine ⟨by simp [h.size_eq], ?_, ?_, fun r hr hBound => hStill r (h.roots r hr hBound), ?_, ?_⟩
  · intro k hk
    rcases (hMarked k).mp hk with rfl | hk
    · exact ⟨r, hr, hLeads⟩
    · exact h.marked k hk
  · intro k hk
    rcases List.mem_append.mp hk with hk | hk
    · obtain ⟨a, b, hNode, rfl | rfl⟩ := (hMore k).mp hk
      · exact ⟨r, hr, by simpa using hLeads.append (.left hNode (.refl _))⟩
      · exact ⟨r, hr, by simpa using hLeads.append (.right hNode (.refl _))⟩
    · exact h.led k (List.mem_cons_of_mem _ hk)
  · intro k a b hk hNode c hc hBound
    rcases (hMarked k).mp hk with rfl | hk
    · exact .inr (List.mem_append_left _ ((hMore c).mpr ⟨a, b, hNode, hc⟩))
    · exact hStill c (h.splits k a b hk hNode c hc hBound)
  · intro k
    rw [hSet, h.mem_set, hMarked]
    constructor
    · rintro (⟨hk, hStop⟩ | ⟨rfl, hStop⟩)
      · exact ⟨.inr hk, hStop⟩
      · exact ⟨.inl rfl, hStop⟩
    · rintro ⟨rfl | hk, hStop⟩
      · exact .inr ⟨rfl, hStop⟩
      · exact .inl ⟨hk, hStop⟩

end Closing

/-- How many nodes are not marked. -/
def unmarked (nodes : LexArena) (m : LexMarks) : Nat :=
  ((Finset.range nodes.size).filter fun i => m.marks[i]? ≠ some m.generation).card

theorem unmarked_mark {m : LexMarks} {n : UInt32} (hSize : m.marks.size = nodes.size) (hn : n.toNat < nodes.size)
    (hNot : m.isMarked n = false) : nodes.unmarked (m.mark n) + 1 ≤ nodes.unmarked m := by
  refine Finset.card_lt_card (Finset.ssubset_iff_subset_ne.mpr ⟨fun i => ?_, fun hEq => ?_⟩)
  · simp only [Finset.mem_filter, LexMarks.mark, Array.getElem?_setIfInBounds]
    intro ⟨hi, hMark⟩
    refine ⟨hi, fun hOld => hMark ?_⟩
    split
    next hEq => rw [if_pos (by rw [hEq]; rw [Finset.mem_range] at hi; omega)]
    next => exact hOld
  · have hMem : n.toNat ∈ (Finset.range nodes.size).filter fun i => m.marks[i]? ≠ some m.generation := by
      rw [Finset.mem_filter, Finset.mem_range]
      refine ⟨hn, fun hMark => ?_⟩
      rw [LexMarks.isMarked, hMark] at hNot
      simp at hNot
    rw [← hEq] at hMem
    simp [LexMarks.mark, Array.getElem?_setIfInBounds, hSize, hn] at hMem

theorem close_eq {root : UInt32 → Prop} {fuel : Nat} {pending : List UInt32} {m : LexMarks} {set : Array UInt32}
    (h : nodes.Closing root pending m set) (hBounded : m.Bounded)
    (hFuel : pending.length + 2 * nodes.unmarked m ≤ fuel) :
    nodes.Closing root [] (nodes.close fuel pending m set).2 (nodes.close fuel pending m set).1 ∧
      (nodes.close fuel pending m set).2.Bounded ∧
      (nodes.close fuel pending m set).2.generation = m.generation := by
  fun_induction close nodes fuel pending m set with
  | case1 pending m set =>
    obtain rfl : pending = [] := List.eq_nil_of_length_eq_zero (by omega)
    exact ⟨h, hBounded, rfl⟩
  | case2 => exact ⟨h, hBounded, rfl⟩
  | case3 fuel n todo m set hMarked ih =>
    refine ih (h.skip (.inl hMarked)) hBounded ?_
    simp only [List.length_cons] at hFuel
    omega
  | case4 fuel n todo m set hUnmarked marks a b hNode ih =>
    have hn := (Array.getElem?_eq_some_iff.mp hNode).1
    have hCount : nodes.unmarked marks + 1 ≤ nodes.unmarked m :=
      unmarked_mark h.size_eq hn (Bool.eq_false_iff.mpr hUnmarked)
    have hStep := h.visit hn [a, b] set (by simp [hNode]) (fun k => ?_)
    · refine ih hStep (hBounded.mark n) ?_
      simp only [List.length_cons] at hFuel ⊢
      omega
    · simp [IsStop, hNode]
  | case5 fuel n todo m set hUnmarked marks node hSplit hNode ih =>
    have hn := (Array.getElem?_eq_some_iff.mp hNode).1
    have hCount : nodes.unmarked marks + 1 ≤ nodes.unmarked m :=
      unmarked_mark h.size_eq hn (Bool.eq_false_iff.mpr hUnmarked)
    have hStop : nodes.IsStop n := ⟨node, hNode, hSplit⟩
    have hStep := h.visit hn [] (set.push n) (fun c => ?_) (fun k => ?_)
    · refine ih hStep (hBounded.mark n) ?_
      simp only [List.length_cons] at hFuel
      omega
    · simp only [List.not_mem_nil, hNode, Option.some.injEq, false_iff, not_exists, not_and]
      exact fun a b hEq => absurd hEq (hSplit a b)
    · simp [hStop]
  | case6 fuel n todo m set hUnmarked marks hNode ih =>
    -- There is no such node, and marking it has no effect.
    have hn := Array.getElem?_eq_none_iff.mp hNode
    have hSame : marks = m := by
      simp [marks, LexMarks.mark, Array.setIfInBounds_eq_of_size_le (h.size_eq.trans_le hn)]
    rw [hSame] at ih ⊢
    refine ih (h.skip (.inr hn)) hBounded ?_
    simp only [List.length_cons] at hFuel
    omega

/-- Marks that are fit for a collection. -/
structure Ready (nodes : LexArena) (m : LexMarks) : Prop where
  size_eq : m.marks.size = nodes.size
  bounded : m.Bounded

theorem unmarked_le (m : LexMarks) : nodes.unmarked m ≤ nodes.size := by
  simpa [unmarked] using Finset.card_filter_le (Finset.range nodes.size) fun i => m.marks[i]? ≠ some m.generation

theorem addNodes_eq {root : UInt32 → Prop} {starts : List UInt32} {m : LexMarks} {set : Array UInt32}
    (h : nodes.Closing root [] m set) (hBounded : m.Bounded) :
    nodes.Closing (fun r => root r ∨ r ∈ starts) [] (nodes.addNodes starts m set).2 (nodes.addNodes starts m set).1 ∧
      (nodes.addNodes starts m set).2.Bounded ∧
      (nodes.addNodes starts m set).2.generation = m.generation := by
  induction starts generalizing root m set with
  | nil => simpa [addNodes] using ⟨h, hBounded⟩
  | cons n rest ih =>
    have hBegin : nodes.Closing (fun r => root r ∨ r = n) [n] m set := by
      refine ⟨h.size_eq, fun k hk => ?_, fun k hk => ⟨n, .inr rfl, ?_⟩, fun r hr hBound => ?_,
        fun k a b hk hNode c hc hBound => .inl ?_, h.mem_set⟩
      · obtain ⟨r, hr, hLeads⟩ := h.marked k hk
        exact ⟨r, .inl hr, hLeads⟩
      · rw [List.mem_singleton.mp hk]
        exact .refl n
      · rcases hr with hr | rfl
        · exact .inl ((h.roots r hr hBound).resolve_right (by simp))
        · exact .inr List.mem_cons_self
      · exact (h.splits k a b hk hNode c hc hBound).resolve_right (by simp)
    have hFuel : [n].length + 2 * nodes.unmarked m ≤ 2 * nodes.size + 1 := by
      have := nodes.unmarked_le m
      simp only [List.length_cons, List.length_nil]
      omega
    obtain ⟨hClosing, hBounded', hGeneration⟩ := close_eq hBegin hBounded hFuel
    rw [addNodes, addNode]
    obtain ⟨hRest, hBoundedRest, hGenerationRest⟩ := ih hClosing hBounded'
    refine ⟨?_, hBoundedRest, hGenerationRest.trans hGeneration⟩
    simpa only [or_assoc, List.mem_cons] using hRest

/-- What is led to without consuming anything is marked, if it exists. -/
theorem Closing.isMarked_of_leads {root : UInt32 → Prop} {m : LexMarks} {set : Array UInt32}
    (h : nodes.Closing root [] m set) {a b : UInt32} {text : List Char} (hLeads : nodes.Leads a text b)
    (hText : text = []) (ha : a.toNat < nodes.size → m.isMarked a = true) (hb : b.toNat < nodes.size) :
    m.isMarked b = true := by
  induction hLeads with
  | refl => exact ha hb
  | left hNode _ ih =>
    have hMarked := ha (Array.getElem?_eq_some_iff.mp hNode).1
    exact ih hText (fun hBound => (h.splits _ _ _ hMarked hNode _ (.inl rfl) hBound).resolve_right (by simp)) hb
  | right hNode _ ih =>
    have hMarked := ha (Array.getElem?_eq_some_iff.mp hNode).1
    exact ih hText (fun hBound => (h.splits _ _ _ hMarked hNode _ (.inr rfl) hBound).resolve_right (by simp)) hb
  | chars => cases hText

/-- A collection that begins with a new generation holds what its nodes lead to without consuming. -/
theorem mem_addNodes {starts : List UInt32} {m : LexMarks} (h : nodes.Ready m)
    (hRoom : m.generation.toNat + 1 < 2 ^ 32) :
    (∀ n, n ∈ (nodes.addNodes starts m.renew #[]).1 ↔ nodes.IsStop n ∧ ∃ r ∈ starts, nodes.Leads r [] n) ∧
      nodes.Ready (nodes.addNodes starts m.renew #[]).2 ∧
      (nodes.addNodes starts m.renew #[]).2.generation.toNat = m.generation.toNat + 1 := by
  obtain ⟨hBounded, hGeneration, hFresh⟩ := h.bounded.renew hRoom
  have hEmpty : nodes.Closing (fun _ => False) [] m.renew #[] :=
    ⟨h.size_eq, by simp [hFresh], by simp, by simp, by simp [hFresh], by simp [hFresh]⟩
  obtain ⟨hClosing, hBounded', hGeneration'⟩ := addNodes_eq hEmpty hBounded
  refine ⟨fun n => ?_, ⟨hClosing.size_eq, hBounded'⟩, by rw [hGeneration', hGeneration]⟩
  rw [hClosing.mem_set, and_comm]
  refine and_congr_right fun hStop => ?_
  obtain ⟨node, hNode, _⟩ := hStop
  have hn := (Array.getElem?_eq_some_iff.mp hNode).1
  constructor
  · intro hMarked
    obtain ⟨r, hr, hLeads⟩ := hClosing.marked n hMarked
    exact ⟨r, hr.resolve_left id, hLeads⟩
  · rintro ⟨r, hr, hLeads⟩
    exact hClosing.isMarked_of_leads hLeads rfl
      (fun hBound => (hClosing.roots r (.inr hr) hBound).resolve_right (by simp)) hn

end LexArena
end Reparse
