import Mathlib
import Reparse.Proofs.Lex.Automaton
import Reparse.Proofs.Lex.CharClass
/-!
# Automata of patterns

Adding a pattern to an arena adds a fragment of new nodes: its ways stay among them until they leave for
the node that the pattern was to continue at, and over every text that the pattern matches some way
leads there. A literal's fragment is a chain, with no other ways. All of this takes an arena whose node
numbers fit in 32 bits.
-/
namespace Reparse

/-- The nodes that a node leads to at once. -/
def LexNode.targets : LexNode → List UInt32
  | .chars _ next => [next]
  | .split a b => [a, b]
  | .accept _ => []

namespace LexArena

/-- The number of a node from `lo` on, before `hi`. -/
def Within (lo hi : Nat) (n : UInt32) : Prop := lo ≤ n.toNat ∧ n.toNat < hi

theorem Within.mono {lo hi lo' hi' : Nat} {n : UInt32} (h : Within lo hi n) (hLo : lo' ≤ lo) (hHi : hi ≤ hi') :
    Within lo' hi' n :=
  ⟨Nat.le_trans hLo h.1, Nat.lt_of_lt_of_le h.2 hHi⟩

/-- `after` has the nodes of `before` in their places and a fragment of new ones. The entries and the
targets of new nodes are new nodes or `next`, and none of the new nodes accepts. -/
structure Adds (before : LexArena) (next : UInt32) (entries : List UInt32) (after : LexArena) : Prop where
  size_le : before.size ≤ after.size
  old : ∀ i, i < before.size → after[i]? = before[i]?
  entries : ∀ n ∈ entries, n = next ∨ Within before.size after.size n
  targets : ∀ i node, before.size ≤ i → after[i]? = some node →
    ∀ n ∈ node.targets, n = next ∨ Within before.size after.size n
  quiet : ∀ i s, before.size ≤ i → after[i]? ≠ some (.accept s)

namespace Adds

variable {a b c : LexArena} {next : UInt32} {entries : List UInt32}

theorem refl (a : LexArena) (next : UInt32) (h : ∀ n ∈ entries, n = next) : Adds a next entries a where
  size_le := Nat.le_refl _
  old _ _ := rfl
  entries n hn := .inl (h n hn)
  targets i node hi hNode := by
    rw [Array.getElem?_eq_none hi] at hNode
    cases hNode
  quiet i s hi hNode := by
    rw [Array.getElem?_eq_none hi] at hNode
    cases hNode

theorem subset {fewer : List UInt32} (h : Adds a next entries b) (hFewer : ∀ n ∈ fewer, n ∈ entries) :
    Adds a next fewer b :=
  ⟨h.size_le, h.old, fun n hn => h.entries n (hFewer n hn), h.targets, h.quiet⟩

/-- A second fragment that continues at the first one, or where that one does. -/
theorem append {more : List UInt32} {n : UInt32} (hFirst : Adds a next entries b) (hSecond : Adds b n more c)
    (hn : n = next ∨ n ∈ entries) : Adds a next (entries ++ more) c := by
  have hInner : n = next ∨ Within a.size c.size n := by
    rcases hn with hn | hn
    · exact .inl hn
    · exact (hFirst.entries n hn).imp_right fun h => h.mono (Nat.le_refl _) hSecond.size_le
  have hWiden {k : UInt32} (hk : k = n ∨ Within b.size c.size k) : k = next ∨ Within a.size c.size k := by
    rcases hk with rfl | hk
    · exact hInner
    · exact .inr (hk.mono hFirst.size_le (Nat.le_refl _))
  refine ⟨Nat.le_trans hFirst.size_le hSecond.size_le, fun i hi => ?_, fun k hk => ?_, fun i node hi hNode => ?_,
    fun i s hi hNode => ?_⟩
  · have := hFirst.size_le
    rw [hSecond.old i (by omega), hFirst.old i hi]
  · rcases List.mem_append.mp hk with hk | hk
    · exact (hFirst.entries k hk).imp_right fun h => h.mono (Nat.le_refl _) hSecond.size_le
    · exact hWiden (hSecond.entries k hk)
  · by_cases hOld : i < b.size
    · rw [hSecond.old i hOld] at hNode
      exact fun k hk => (hFirst.targets i node hi hNode k hk).imp_right fun h => h.mono (Nat.le_refl _) hSecond.size_le
    · exact fun k hk => hWiden (hSecond.targets i node (by omega) hNode k hk)
  · by_cases hOld : i < b.size
    · rw [hSecond.old i hOld] at hNode
      exact hFirst.quiet i s hi hNode
    · exact hSecond.quiet i s (by omega) hNode

theorem toNat_size {a : LexArena} (h : a.size < 2 ^ 32) : a.size.toUInt32.toNat = a.size := Nat.mod_eq_of_lt h

/-- One more node, by which the fragment may be entered as well. -/
theorem push {node : LexNode} (h : Adds a next entries b) (hSize : b.size < 2 ^ 32)
    (hTargets : ∀ n ∈ node.targets, n = next ∨ Within a.size b.size n) (hQuiet : ∀ s, node ≠ .accept s) :
    Adds a next (b.size.toUInt32 :: entries) (b.push node) := by
  have hLe := h.size_le
  have hGrown : b.size ≤ (b.push node).size := by simp
  have hAt {i : Nat} {node' : LexNode} (hi : a.size ≤ i) (hNode : (b.push node)[i]? = some node') :
      node' = node ∨ b[i]? = some node' := by
    rw [Array.getElem?_push] at hNode
    split at hNode
    · exact .inl (Option.some.inj hNode).symm
    · exact .inr hNode
  refine ⟨by simp only [Array.size_push]; omega, fun i hi => ?_, fun n hn => ?_, fun i node' hi hNode n hn => ?_,
    fun i s hi hNode => ?_⟩
  · rw [Array.getElem?_push, if_neg (by omega), h.old i hi]
  · rcases List.mem_cons.mp hn with rfl | hn
    · exact .inr ⟨by rw [toNat_size hSize]; exact hLe, by rw [toNat_size hSize]; simp⟩
    · exact (h.entries n hn).imp_right fun h => h.mono (Nat.le_refl _) hGrown
  · rcases hAt hi hNode with rfl | hOld
    · exact (hTargets n hn).imp_right fun h => h.mono (Nat.le_refl _) hGrown
    · exact (h.targets i node' hi hOld n hn).imp_right fun h => h.mono (Nat.le_refl _) hGrown
  · rcases hAt hi hNode with hEq | hOld
    · exact hQuiet s hEq.symm
    · exact h.quiet i s hi hOld

/-- A fork whose loop is built before its own targets are known. -/
theorem loop {body : UInt32} (hFork : a.size < 2 ^ 32)
    (h : Adds (a.push (.split next next)) a.size.toUInt32 [body] b) :
    Adds a next [a.size.toUInt32, body] (b.setIfInBounds a.size.toUInt32.toNat (.split body next)) := by
  have hLe := h.size_le
  rw [Array.size_push] at hLe
  have hIndex := toNat_size hFork
  have hForkIn : Within a.size b.size a.size.toUInt32 := ⟨by omega, by omega⟩
  have hBody : Within a.size b.size body := by
    rcases h.entries body List.mem_cons_self with rfl | hBody
    · exact hForkIn
    · rw [Array.size_push] at hBody
      exact hBody.mono (by omega) (Nat.le_refl _)
  have hAt {i : Nat} {node : LexNode} (hi : a.size ≤ i)
      (hNode : (b.setIfInBounds a.size.toUInt32.toNat (.split body next))[i]? = some node) :
      node = .split body next ∨ (a.size + 1 ≤ i ∧ b[i]? = some node) := by
    rw [Array.getElem?_setIfInBounds, hIndex] at hNode
    split at hNode
    · rw [if_pos (by omega)] at hNode
      exact .inl (Option.some.inj hNode).symm
    · exact .inr ⟨by omega, hNode⟩
  refine ⟨by simp only [Array.size_setIfInBounds]; omega, fun i hi => ?_, fun n hn => ?_,
    fun i node hi hNode n hn => ?_, fun i s hi hNode => ?_⟩
  · rw [Array.getElem?_setIfInBounds, if_neg (by omega), h.old i (by rw [Array.size_push]; omega),
      Array.getElem?_push, if_neg (by omega)]
  · rw [Array.size_setIfInBounds]
    simp only [List.mem_cons, List.not_mem_nil, or_false] at hn
    rcases hn with rfl | rfl
    · exact .inr hForkIn
    · exact .inr hBody
  · rw [Array.size_setIfInBounds]
    rcases hAt hi hNode with rfl | ⟨hi, hOld⟩
    · simp only [LexNode.targets, List.mem_cons, List.not_mem_nil, or_false] at hn
      rcases hn with rfl | rfl
      · exact .inr hBody
      · exact .inl rfl
    · rcases h.targets i node (by rw [Array.size_push]; exact hi) hOld n hn with rfl | hn
      · exact .inr hForkIn
      · rw [Array.size_push] at hn
        exact .inr (hn.mono (by omega) (Nat.le_refl _))
  · rcases hAt hi hNode with hEq | ⟨hi, hOld⟩
    · cases hEq
    · exact h.quiet i s (by rw [Array.size_push]; exact hi) hOld

end Adds

/-! ## Fragments of patterns -/

theorem addLiteral_adds (arena : LexArena) (next : UInt32) (text : List Char)
    (hSize : (arena.addLiteral next text).2.size ≤ 2 ^ 32) :
    Adds arena next [(arena.addLiteral next text).1] (arena.addLiteral next text).2 := by
  induction text with
  | nil => exact .refl arena next (by simp [addLiteral])
  | cons x rest ih =>
    rw [addLiteral] at hSize ⊢
    simp only [add, Array.size_push] at hSize ⊢
    have hRest := ih (by omega)
    refine (hRest.push (by omega) (fun n hn => hRest.entries n ?_) (by simp)).subset (by simp)
    simpa [LexNode.targets] using hn

theorem size_le_addSplits (arena : LexArena) (next : UInt32) (entries : List UInt32) :
    arena.size ≤ (arena.addSplits next entries).2.size := by
  fun_induction addSplits arena next entries with
  | case1 => exact Nat.le_refl _
  | case2 => exact Nat.le_refl _
  | case3 entry rest hRest others arena' hOthers ih =>
    rw [hOthers] at ih
    simp only [add, Array.size_push]
    dsimp only at ih
    omega

theorem addSplits_adds {before arena : LexArena} {next : UInt32} {entries all : List UInt32}
    (h : Adds before next all arena) (hAll : ∀ n ∈ entries, n ∈ all)
    (hSize : (arena.addSplits next entries).2.size ≤ 2 ^ 32) :
    Adds before next ((arena.addSplits next entries).1 :: all) (arena.addSplits next entries).2 := by
  fun_induction addSplits arena next entries with
  | case1 => exact ⟨h.size_le, h.old, by simpa using h.entries, h.targets, h.quiet⟩
  | case2 entry => exact h.subset (by simpa using hAll entry List.mem_cons_self)
  | case3 entry rest hRest others arena' hOthers ih =>
    simp only [add, Array.size_push] at hSize ⊢
    have hInner := ih (fun n hn => hAll n (List.mem_cons_of_mem _ hn)) (by rw [hOthers]; dsimp only; omega)
    rw [hOthers] at hInner
    dsimp only at hInner
    refine (hInner.push (by omega) (fun n hn => hInner.entries n ?_) (by simp)).subset (by simp +contextual)
    simp only [LexNode.targets, List.mem_cons, List.not_mem_nil, or_false] at hn
    rcases hn with rfl | rfl
    · exact List.mem_cons_of_mem _ (hAll _ List.mem_cons_self)
    · exact List.mem_cons_self

mutual

theorem addPattern_adds (arena : LexArena) (next : UInt32) :
    ∀ p : Pattern, (arena.addPattern next p).2.size ≤ 2 ^ 32 →
      Adds arena next [(arena.addPattern next p).1] (arena.addPattern next p).2
  | .literal text, hSize => by
    rw [addPattern] at hSize ⊢
    exact addLiteral_adds arena next text hSize
  | .chars cls, hSize => by
    rw [addPattern] at hSize ⊢
    simp only [add, Array.size_push] at hSize ⊢
    exact (Adds.refl arena next (by simp)).push (by omega) (by simp [LexNode.targets]) (by simp)
  | .seq items, hSize => by
    rw [addPattern] at hSize ⊢
    exact addSeq_adds arena next items hSize
  | .choice items, hSize => by
    rw [addPattern] at hSize ⊢
    dsimp only at hSize ⊢
    have hChoices := addChoices_adds arena next items (Nat.le_trans (size_le_addSplits _ _ _) hSize)
    exact (addSplits_adds hChoices (fun n hn => hn) hSize).subset (by simp)
  | .optional item, hSize => by
    rw [addPattern] at hSize ⊢
    simp only [add, Array.size_push] at hSize ⊢
    have hItem := addPattern_adds arena next item (by omega)
    refine (hItem.push (by omega) (fun n hn => ?_) (by simp)).subset (by simp)
    simp only [LexNode.targets, List.mem_cons, List.not_mem_nil, or_false] at hn
    rcases hn with rfl | rfl
    · exact hItem.entries _ List.mem_cons_self
    · exact .inl rfl
  | .star item, hSize => by
    rw [addPattern] at hSize ⊢
    simp only [add, Array.size_setIfInBounds] at hSize ⊢
    have hItem := addPattern_adds (arena.push (.split next next)) arena.size.toUInt32 item hSize
    have hLe := hItem.size_le
    rw [Array.size_push] at hLe
    exact (Adds.loop (by omega) hItem).subset (by simp)
  | .plus item, hSize => by
    rw [addPattern] at hSize ⊢
    simp only [add, Array.size_setIfInBounds] at hSize ⊢
    have hItem := addPattern_adds (arena.push (.split next next)) arena.size.toUInt32 item hSize
    have hLe := hItem.size_le
    rw [Array.size_push] at hLe
    exact (Adds.loop (by omega) hItem).subset (by simp)

theorem addSeq_adds (arena : LexArena) (next : UInt32) :
    ∀ items : List Pattern, (arena.addSeq next items).2.size ≤ 2 ^ 32 →
      Adds arena next [(arena.addSeq next items).1] (arena.addSeq next items).2
  | [], _ => by
    rw [addSeq]
    exact .refl arena next (by simp)
  | p :: rest, hSize => by
    rw [addSeq] at hSize ⊢
    dsimp only at hSize ⊢
    have hFirst := addPattern_adds (arena.addSeq next rest).2 (arena.addSeq next rest).1 p hSize
    have hRest := addSeq_adds arena next rest (Nat.le_trans hFirst.size_le hSize)
    exact (hRest.append hFirst (.inr List.mem_cons_self)).subset (by simp)

theorem addChoices_adds (arena : LexArena) (next : UInt32) :
    ∀ items : List Pattern, (arena.addChoices next items).2.size ≤ 2 ^ 32 →
      Adds arena next (arena.addChoices next items).1 (arena.addChoices next items).2
  | [], _ => by
    rw [addChoices]
    exact .refl arena next (by simp)
  | p :: rest, hSize => by
    rw [addChoices] at hSize ⊢
    dsimp only at hSize ⊢
    have hRest := addChoices_adds (arena.addPattern next p).2 next rest hSize
    have hFirst := addPattern_adds arena next p (Nat.le_trans hRest.size_le hSize)
    exact (hFirst.append hRest (.inl rfl)).subset (by simp)

end

/-! ## Literals -/

/-- The nodes of a literal: each one consumes one of its characters and leads to the next. -/
inductive Chain (nodes : LexArena) : UInt32 → List Char → UInt32 → Prop
  | nil (a : UInt32) : Chain nodes a [] a
  | cons {a b c : UInt32} {x : Char} {rest : List Char} :
    nodes[a.toNat]? = some (.chars ⟨#[(x, x)], false⟩ b) → Chain nodes b rest c → Chain nodes a (x :: rest) c

/-- `nodes` has the nodes of `arena` from `lo` on in their places. -/
def Keeps (nodes : LexArena) (lo : Nat) (arena : LexArena) : Prop :=
  ∀ i, lo ≤ i → i < arena.size → nodes[i]? = arena[i]?

theorem contains_single {x y : Char} : CharClass.contains ⟨#[(x, x)], false⟩ y = true ↔ y = x := by
  have hSorted : CharClass.Sorted [(x, x)] := ⟨by simp, List.pairwise_singleton _ _⟩
  have hHolds : CharClass.Holds [(x, x)] y ↔ y = x := by
    simp only [CharClass.Holds, List.mem_singleton, exists_eq_left]
    exact ⟨fun h => le_antisymm h.2 h.1, fun h => ⟨h.ge, h.le⟩⟩
  rw [CharClass.contains_iff hSorted]
  simp [hHolds, Xor]

variable {nodes : LexArena}

theorem Chain.leads {a c : UInt32} {text : List Char} (h : Chain nodes a text c) : nodes.Leads a text c := by
  induction h with
  | nil => exact .refl _
  | cons hNode _ ih => exact .chars hNode (contains_single.mpr rfl) ih

/-- There is one way through a chain. -/
theorem Chain.leads_cases {a c n : UInt32} {text taken : List Char} (h : Chain nodes a text c)
    (hLeads : nodes.Leads a taken n) :
    (∃ x back, text = taken ++ x :: back ∧ nodes.accepted? n = none) ∨
      ∃ more, taken = text ++ more ∧ nodes.Leads c more n := by
  induction h generalizing taken with
  | nil => exact .inr ⟨taken, rfl, hLeads⟩
  | @cons a b c x rest hNode _ ih =>
    cases hLeads with
    | refl => exact .inl ⟨x, rest, rfl, by simp [accepted?, hNode]⟩
    | left hSplit => rw [hNode] at hSplit; cases hSplit
    | right hSplit => rw [hNode] at hSplit; cases hSplit
    | chars hChars hy hRest =>
      rw [hNode, Option.some.injEq, LexNode.chars.injEq] at hChars
      obtain ⟨rfl, rfl⟩ := hChars
      obtain rfl := contains_single.mp hy
      rcases ih hRest with ⟨z, back, rfl, hQuiet⟩ | ⟨more, rfl, hMore⟩
      · exact .inl ⟨z, back, rfl, hQuiet⟩
      · exact .inr ⟨more, rfl, hMore⟩

theorem addLiteral_chain {arena : LexArena} {next : UInt32} {text : List Char}
    (hSize : (arena.addLiteral next text).2.size ≤ 2 ^ 32)
    (hKeeps : nodes.Keeps arena.size (arena.addLiteral next text).2) :
    Chain nodes (arena.addLiteral next text).1 text next := by
  induction text with
  | nil => exact .nil next
  | cons x rest ih =>
    rw [addLiteral] at hSize hKeeps ⊢
    simp only [add, Array.size_push] at hSize hKeeps ⊢
    have hLe := (addLiteral_adds arena next rest (by omega)).size_le
    refine .cons (b := (arena.addLiteral next rest).1) ?_ (ih (by omega) fun i hi hBound => ?_)
    · rw [Adds.toNat_size (by omega), hKeeps _ hLe (by simp)]
      simp
    · rw [hKeeps i hi (by simp only [Array.size_push]; omega), Array.getElem?_push, if_neg (by omega)]

end LexArena

/-! ## What patterns match -/

namespace Pattern

inductive Matches : Pattern → List Char → Prop
  | literal (text : List Char) : Matches (.literal text) text
  | chars {cls : CharClass} {x : Char} : cls.contains x = true → Matches (.chars cls) [x]
  | seq_nil : Matches (.seq []) []
  | seq_cons {p : Pattern} {rest : List Pattern} {front back : List Char} :
    Matches p front → Matches (.seq rest) back → Matches (.seq (p :: rest)) (front ++ back)
  | choice {p : Pattern} {items : List Pattern} {text : List Char} :
    p ∈ items → Matches p text → Matches (.choice items) text
  | star_nil (p : Pattern) : Matches (.star p) []
  | star_cons {p : Pattern} {front back : List Char} :
    Matches p front → Matches (.star p) back → Matches (.star p) (front ++ back)
  | plus {p : Pattern} {front back : List Char} :
    Matches p front → Matches (.star p) back → Matches (.plus p) (front ++ back)
  | optional_none (p : Pattern) : Matches (.optional p) []
  | optional_some {p : Pattern} {text : List Char} : Matches p text → Matches (.optional p) text

variable {p : Pattern} {text front mid back : List Char} {starts : Offsets} {stop : Nat}

theorem Matches.star_snoc (hFront : Matches (.star p) front) (hBack : Matches p back) :
    Matches (.star p) (front ++ back) := by
  generalize hq : Pattern.star p = q at hFront
  induction hFront with
  | star_nil => simpa [← hq] using Matches.star_cons hBack (.star_nil p)
  | star_cons hFirst _ _ ih =>
    obtain rfl := Pattern.star.inj hq
    rw [List.append_assoc]
    exact .star_cons hFirst (ih rfl)
  | _ => cases hq

theorem Matches.plus_snoc (hFront : Matches (.plus p) front) (hBack : Matches p back) :
    Matches (.plus p) (front ++ back) := by
  cases hFront with
  | plus hFirst hRest =>
    rw [List.append_assoc]
    exact .plus hFirst (hRest.star_snoc hBack)

/-- `mid` stands in `text` between two offsets. -/
structure Segment (text : List Char) (start : Nat) (mid : List Char) (stop : Nat) : Prop where
  drop_eq : text.drop start = mid ++ text.drop stop
  stop_eq : stop = start + mid.length

theorem Segment.nil (text : List Char) (start : Nat) : Segment text start [] start := ⟨rfl, rfl⟩

theorem Segment.append {a b c : Nat} (hFront : Segment text a front b) (hBack : Segment text b back c) :
    Segment text a (front ++ back) c :=
  ⟨by rw [hFront.drop_eq, hBack.drop_eq, List.append_assoc],
    by rw [hBack.stop_eq, hFront.stop_eq, List.length_append, Nat.add_assoc]⟩

/-- Where what stands before an offset ends a match that begins at one of `starts`. -/
def EndsAt (text : List Char) (M : List Char → Prop) (starts : Offsets) (stop : Nat) : Prop :=
  ∃ start ∈ starts, ∃ mid, Segment text start mid stop ∧ M mid

theorem mem_of_mem_unreached {reached new : Offsets} (h : stop ∈ unreached reached new) : stop ∈ new := by
  rw [unreached, List.mem_eraseDups] at h
  exact (List.mem_filter.mp h).1

theorem closure_induction {step : Offsets → Offsets} {P : Nat → Prop} {fuel : Nat} {reached frontier : Offsets}
    (hStep : ∀ from_ : Offsets, (∀ n ∈ from_, P n) → ∀ n ∈ step from_, P n) (hReached : ∀ n ∈ reached, P n)
    (hFrontier : ∀ n ∈ frontier, P n) : ∀ n ∈ closure step fuel reached frontier, P n := by
  fun_induction closure step fuel reached frontier with
  | case1 => exact hReached
  | case2 => exact hReached
  | case3 fuel reached frontier hNew ih =>
    have hMore : ∀ n ∈ unreached reached (step frontier), P n := fun n hn =>
      hStep frontier hFrontier n (mem_of_mem_unreached hn)
    refine ih (fun n hn => ?_) hMore
    rcases List.mem_append.mp hn with hn | hn
    · exact hReached n hn
    · exact hMore n hn

mutual

theorem ends_matches (text : List Char) : ∀ (p : Pattern) (starts : Offsets) (stop : Nat), stop ∈ ends text p starts →
    EndsAt text p.Matches starts stop
  | .literal word, starts, stop, h => by
    rw [ends] at h
    obtain ⟨start, hStart, rfl⟩ := List.mem_map.mp h
    obtain ⟨hMem, hPrefix⟩ := List.mem_filter.mp hStart
    obtain ⟨rest, hRest⟩ := List.isPrefixOf_iff_prefix.mp hPrefix
    refine ⟨start, hMem, word, ⟨?_, rfl⟩, .literal word⟩
    rw [← List.drop_drop, ← hRest, List.drop_left]
  | .chars cls, starts, stop, h => by
    rw [ends] at h
    obtain ⟨start, hStart, rfl⟩ := List.mem_map.mp h
    obtain ⟨hMem, hAny⟩ := List.mem_filter.mp hStart
    obtain ⟨x, hx, hContains⟩ := (Option.any_eq_true _ _).mp hAny
    obtain ⟨hBound, hAt⟩ := List.getElem?_eq_some_iff.mp hx
    exact ⟨start, hMem, [x], ⟨by rw [List.drop_eq_getElem_cons hBound, hAt]; rfl, rfl⟩, .chars hContains⟩
  | .seq items, starts, stop, h => by
    rw [ends] at h
    exact seqEnds_matches text items starts stop h
  | .choice items, starts, stop, h => by
    rw [ends, List.mem_eraseDups] at h
    obtain ⟨p, hp, start, hMem, mid, hSegment, hMatches⟩ := choiceEnds_matches text items starts stop h
    exact ⟨start, hMem, mid, hSegment, .choice hp hMatches⟩
  | .star item, starts, stop, h => by
    rw [ends] at h
    have hStarts : ∀ n ∈ starts, EndsAt text (Matches (.star item)) starts n :=
      fun n hn => ⟨n, hn, [], .nil text n, .star_nil item⟩
    refine closure_induction (fun from_ hFrom n hn => ?_) hStarts hStarts stop h
    obtain ⟨m, hm, back, hBack, hItem⟩ := ends_matches text item from_ n hn
    obtain ⟨start, hMem, front, hFront, hStar⟩ := hFrom m hm
    exact ⟨start, hMem, front ++ back, hFront.append hBack, hStar.star_snoc hItem⟩
  | .plus item, starts, stop, h => by
    rw [ends] at h
    have hOnce : ∀ n ∈ ends text item starts, EndsAt text (Matches (.plus item)) starts n := by
      intro n hn
      obtain ⟨start, hMem, mid, hSegment, hItem⟩ := ends_matches text item starts n hn
      exact ⟨start, hMem, mid, hSegment, by simpa using Matches.plus hItem (.star_nil item)⟩
    refine closure_induction (fun from_ hFrom n hn => ?_) hOnce hOnce stop h
    obtain ⟨m, hm, back, hBack, hItem⟩ := ends_matches text item from_ n hn
    obtain ⟨start, hMem, front, hFront, hPlus⟩ := hFrom m hm
    exact ⟨start, hMem, front ++ back, hFront.append hBack, hPlus.plus_snoc hItem⟩
  | .optional item, starts, stop, h => by
    rw [ends] at h
    rcases List.mem_append.mp h with h | h
    · exact ⟨stop, h, [], .nil text stop, .optional_none item⟩
    · obtain ⟨start, hMem, mid, hSegment, hItem⟩ := ends_matches text item starts stop (mem_of_mem_unreached h)
      exact ⟨start, hMem, mid, hSegment, .optional_some hItem⟩

theorem seqEnds_matches (text : List Char) : ∀ (items : List Pattern) (starts : Offsets) (stop : Nat),
    stop ∈ seqEnds text items starts → EndsAt text (Matches (.seq items)) starts stop
  | [], starts, stop, h => by
    rw [seqEnds] at h
    exact ⟨stop, h, [], .nil text stop, .seq_nil⟩
  | p :: rest, starts, stop, h => by
    rw [seqEnds] at h
    obtain ⟨m, hm, back, hBack, hRest⟩ := seqEnds_matches text rest _ stop h
    obtain ⟨start, hMem, front, hFront, hFirst⟩ := ends_matches text p starts m hm
    exact ⟨start, hMem, front ++ back, hFront.append hBack, .seq_cons hFirst hRest⟩

theorem choiceEnds_matches (text : List Char) : ∀ (items : List Pattern) (starts : Offsets) (stop : Nat),
    stop ∈ choiceEnds text items starts → ∃ p ∈ items, EndsAt text p.Matches starts stop
  | [], _, _, h => by simp [choiceEnds] at h
  | p :: rest, starts, stop, h => by
    rw [choiceEnds] at h
    rcases List.mem_append.mp h with h | h
    · exact ⟨p, List.mem_cons_self, ends_matches text p starts stop h⟩
    · obtain ⟨q, hq, hEnds⟩ := choiceEnds_matches text rest starts stop h
      exact ⟨q, List.mem_cons_of_mem _ hq, hEnds⟩

end

/-- The texts that a pattern matches as a whole. -/
theorem matches_of_matchesAll (h : p.matchesAll text = true) : p.Matches text := by
  rw [matchesAll, List.contains_iff_mem] at h
  obtain ⟨start, hStart, mid, hSegment, hMatches⟩ := ends_matches text p [0] _ h
  obtain rfl := List.mem_singleton.mp hStart
  have hText := hSegment.drop_eq
  rw [List.drop_length, List.append_nil, List.drop_zero] at hText
  rwa [hText]

end Pattern

/-! ## Ways over what patterns match -/

namespace LexArena

variable {nodes : LexArena}

theorem Keeps.of_adds {lo : Nat} {b c : LexArena} {next : UInt32} {entries : List UInt32} (h : nodes.Keeps lo c)
    (hAdds : Adds b next entries c) : nodes.Keeps lo b := by
  intro i hi hBound
  rw [h i hi (Nat.lt_of_lt_of_le hBound hAdds.size_le), hAdds.old i hBound]

theorem Keeps.of_push {lo : Nat} {b : LexArena} {node : LexNode} (h : nodes.Keeps lo (b.push node)) :
    nodes.Keeps lo b := by
  intro i hi hBound
  rw [h i hi (by simp only [Array.size_push]; omega), Array.getElem?_push, if_neg (by omega)]

theorem Keeps.last {lo : Nat} {b : LexArena} {node : LexNode} (h : nodes.Keeps lo (b.push node)) (hLo : lo ≤ b.size)
    (hSize : b.size < 2 ^ 32) : nodes[b.size.toUInt32.toNat]? = some node := by
  rw [Adds.toNat_size hSize, h _ hLo (by simp)]
  simp

theorem addSplits_keeps {arena : LexArena} {next : UInt32} {entries : List UInt32} {lo : Nat}
    (hKeeps : nodes.Keeps lo (arena.addSplits next entries).2) : nodes.Keeps lo arena := by
  fun_induction addSplits arena next entries with
  | case1 => exact hKeeps
  | case2 => exact hKeeps
  | case3 entry rest hRest others arena' hOthers ih =>
    rw [hOthers] at ih
    exact ih hKeeps.of_push

theorem addSplits_leads {arena : LexArena} {next : UInt32} {entries : List UInt32} {lo : Nat}
    (hSize : (arena.addSplits next entries).2.size ≤ 2 ^ 32) (hLo : lo ≤ arena.size)
    (hKeeps : nodes.Keeps lo (arena.addSplits next entries).2) {entry : UInt32} (hEntry : entry ∈ entries) :
    nodes.Leads (arena.addSplits next entries).1 [] entry := by
  fun_induction addSplits arena next entries with
  | case1 => cases hEntry
  | case2 => rw [List.mem_singleton.mp hEntry]; exact .refl _
  | case3 entry' rest hRest others arena' hOthers ih =>
    have hLe := size_le_addSplits arena next rest
    rw [hOthers] at ih hLe
    dsimp only at hLe
    simp only [add, Array.size_push] at hSize hKeeps ⊢
    have hLast := hKeeps.last (by omega) (by omega)
    rcases List.mem_cons.mp hEntry with rfl | hEntry
    · exact .left hLast (.refl _)
    · exact .right hLast (ih (by dsimp only; omega) hKeeps.of_push hEntry)

/-- A fork leads over any number of texts that lead from its body back to it. -/
theorem leads_of_star {fork body next : UInt32} {item : Pattern} (hFork : nodes[fork.toNat]? = some (.split body next))
    (hItem : ∀ text, item.Matches text → nodes.Leads body text fork) {text : List Char}
    (h : (Pattern.star item).Matches text) : nodes.Leads fork text next := by
  generalize hq : Pattern.star item = q at h
  induction h with
  | star_nil => exact .right hFork (.refl _)
  | star_cons hFirst _ _ ih =>
    obtain rfl := Pattern.star.inj hq
    exact .left hFork ((hItem _ hFirst).append (ih rfl))
  | _ => cases hq

/-- What is kept of a loop: the fork, and the nodes of the body. -/
theorem Keeps.of_loop {arena inner : LexArena} {next body : UInt32} (hFork : arena.size < 2 ^ 32)
    (hLe : arena.size + 1 ≤ inner.size)
    (h : nodes.Keeps arena.size (inner.setIfInBounds arena.size.toUInt32.toNat (.split body next))) :
    nodes[arena.size.toUInt32.toNat]? = some (.split body next) ∧ nodes.Keeps (arena.size + 1) inner := by
  have hIndex := Adds.toNat_size hFork
  refine ⟨?_, fun i hi hBound => ?_⟩
  · rw [hIndex, h _ (Nat.le_refl _) (by rw [Array.size_setIfInBounds]; omega), Array.getElem?_setIfInBounds, hIndex,
      if_pos rfl, if_pos (by omega)]
  · rw [h i (by omega) (by rwa [Array.size_setIfInBounds]), Array.getElem?_setIfInBounds, hIndex, if_neg (by omega)]

mutual

theorem addPattern_leads (arena : LexArena) (next : UInt32) :
    ∀ p : Pattern, (arena.addPattern next p).2.size ≤ 2 ^ 32 → nodes.Keeps arena.size (arena.addPattern next p).2 →
      ∀ text, p.Matches text → nodes.Leads (arena.addPattern next p).1 text next
  | .literal word, hSize, hKeeps, text, hMatches => by
    cases hMatches
    rw [addPattern] at hSize hKeeps ⊢
    exact (addLiteral_chain hSize hKeeps).leads
  | .chars cls, hSize, hKeeps, text, hMatches => by
    rw [addPattern] at hSize hKeeps ⊢
    simp only [add, Array.size_push] at hSize hKeeps ⊢
    cases hMatches with | chars hx => ?_
    exact .chars (hKeeps.last (Nat.le_refl _) (by omega)) hx (.refl _)
  | .seq items, hSize, hKeeps, text, hMatches => by
    rw [addPattern] at hSize hKeeps ⊢
    exact addSeq_leads arena next items hSize hKeeps text hMatches
  | .choice items, hSize, hKeeps, text, hMatches => by
    rw [addPattern] at hSize hKeeps ⊢
    dsimp only at hSize hKeeps ⊢
    cases hMatches with | choice hp hMatches => ?_
    have hChoices := Nat.le_trans (size_le_addSplits _ _ _) hSize
    have hLe := (addChoices_adds arena next items hChoices).size_le
    obtain ⟨entry, hEntry, hLeads⟩ := addChoices_leads arena next items hChoices (addSplits_keeps hKeeps) _ hp _ hMatches
    exact (addSplits_leads hSize hLe hKeeps hEntry).append hLeads
  | .optional item, hSize, hKeeps, text, hMatches => by
    rw [addPattern] at hSize hKeeps ⊢
    simp only [add, Array.size_push] at hSize hKeeps ⊢
    have hLe := (addPattern_adds arena next item (by omega)).size_le
    have hLast := hKeeps.last hLe (by omega)
    cases hMatches with
    | optional_none => exact .right hLast (.refl _)
    | optional_some hItem => exact .left hLast (addPattern_leads arena next item (by omega) hKeeps.of_push text hItem)
  | .star item, hSize, hKeeps, text, hMatches => by
    rw [addPattern] at hSize hKeeps ⊢
    simp only [add, Array.size_setIfInBounds] at hSize hKeeps ⊢
    have hLe := (addPattern_adds (arena.push (.split next next)) arena.size.toUInt32 item hSize).size_le
    rw [Array.size_push] at hLe
    obtain ⟨hFork, hInner⟩ := Keeps.of_loop (by omega) hLe hKeeps
    rw [← Array.size_push (v := LexNode.split next next)] at hInner
    exact leads_of_star hFork (addPattern_leads _ _ item hSize hInner) hMatches
  | .plus item, hSize, hKeeps, text, hMatches => by
    cases hMatches with | plus hFirst hRest => ?_
    rw [addPattern] at hSize hKeeps ⊢
    simp only [add, Array.size_setIfInBounds] at hSize hKeeps ⊢
    have hLe := (addPattern_adds (arena.push (.split next next)) arena.size.toUInt32 item hSize).size_le
    rw [Array.size_push] at hLe
    obtain ⟨hFork, hInner⟩ := Keeps.of_loop (by omega) hLe hKeeps
    rw [← Array.size_push (v := LexNode.split next next)] at hInner
    have hItem := addPattern_leads _ _ item hSize hInner
    exact (hItem _ hFirst).append (leads_of_star hFork hItem hRest)

theorem addSeq_leads (arena : LexArena) (next : UInt32) :
    ∀ items : List Pattern, (arena.addSeq next items).2.size ≤ 2 ^ 32 →
      nodes.Keeps arena.size (arena.addSeq next items).2 →
      ∀ text, (Pattern.seq items).Matches text → nodes.Leads (arena.addSeq next items).1 text next
  | [], _, _, text, hMatches => by
    cases hMatches
    rw [addSeq]
    exact .refl _
  | p :: rest, hSize, hKeeps, text, hMatches => by
    cases hMatches with | seq_cons hFirst hRest => ?_
    rw [addSeq] at hSize hKeeps ⊢
    dsimp only at hSize hKeeps ⊢
    have hAdds := addPattern_adds (arena.addSeq next rest).2 (arena.addSeq next rest).1 p hSize
    have hInner := Nat.le_trans hAdds.size_le hSize
    have hLe := (addSeq_adds arena next rest hInner).size_le
    have hFront := addPattern_leads (arena.addSeq next rest).2 (arena.addSeq next rest).1 p hSize
      (fun i hi hBound => hKeeps i (Nat.le_trans hLe hi) hBound) _ hFirst
    exact hFront.append (addSeq_leads arena next rest hInner (hKeeps.of_adds hAdds) _ hRest)

theorem addChoices_leads (arena : LexArena) (next : UInt32) :
    ∀ items : List Pattern, (arena.addChoices next items).2.size ≤ 2 ^ 32 →
      nodes.Keeps arena.size (arena.addChoices next items).2 →
      ∀ p ∈ items, ∀ text, p.Matches text →
        ∃ entry ∈ (arena.addChoices next items).1, nodes.Leads entry text next
  | [], _, _, p, hp, text, hMatches => by cases hp
  | p :: rest, hSize, hKeeps, q, hq, text, hMatches => by
    rw [addChoices] at hSize hKeeps ⊢
    dsimp only at hSize hKeeps ⊢
    have hAdds := addChoices_adds (arena.addPattern next p).2 next rest hSize
    have hInner := Nat.le_trans hAdds.size_le hSize
    have hLe := (addPattern_adds arena next p hInner).size_le
    rcases List.mem_cons.mp hq with hEq | hq
    · exact ⟨_, List.mem_cons_self,
        addPattern_leads arena next p hInner (hKeeps.of_adds hAdds) text (hEq ▸ hMatches)⟩
    · obtain ⟨entry, hEntry, hLeads⟩ := addChoices_leads (arena.addPattern next p).2 next rest hSize
        (fun i hi hBound => hKeeps i (Nat.le_trans hLe hi) hBound) q hq text hMatches
      exact ⟨entry, List.mem_cons_of_mem _ hEntry, hLeads⟩

end

/-! ## Automata of tokens -/

/-- An automaton of its own: all ways from its first node stay within it, and its only accepting node is
the token's. -/
structure Recognizes (nodes : LexArena) (first : UInt32) (symbol : Symbol) (pattern : Pattern) : Prop where
  own : ∀ text n s, nodes.Leads first text n → nodes.accepted? n = some s → s = symbol
  complete : ∀ text, pattern.Matches text → ∃ n, nodes.Leads first text n ∧ nodes.accepted? n = some symbol
  literal : ∀ text, pattern = .literal text →
    ∃ n, Chain nodes first text n ∧ nodes[n.toNat]? = some (.accept symbol)

theorem addToken_size_le (arena : LexArena) (symbol : Symbol) (pattern : Pattern)
    (hSize : (arena.addToken symbol pattern).2.size ≤ 2 ^ 32) :
    arena.size < (arena.addToken symbol pattern).2.size ∧
      ∀ i, i < arena.size → (arena.addToken symbol pattern).2[i]? = arena[i]? := by
  rw [addToken] at hSize ⊢
  simp only [add] at hSize ⊢
  have hAdds := addPattern_adds (arena.push (.accept symbol)) arena.size.toUInt32 pattern hSize
  have hLe := hAdds.size_le
  rw [Array.size_push] at hLe
  refine ⟨by omega, fun i hi => ?_⟩
  rw [hAdds.old i (by rw [Array.size_push]; omega), Array.getElem?_push, if_neg (by omega)]

/-- Ways from a fragment that continues at an accepting node stay among the two. -/
theorem Adds.stays {base after : LexArena} {next : UInt32} {entries : List UInt32} {symbol : Symbol}
    (h : Adds base next entries after) (hKeeps : nodes.Keeps base.size after)
    (hAccept : nodes[next.toNat]? = some (.accept symbol)) {a b : UInt32} {text : List Char}
    (hLeads : nodes.Leads a text b) (ha : a = next ∨ Within base.size after.size a) :
    b = next ∨ Within base.size after.size b := by
  have hTargets {c : UInt32} {node : LexNode} (hc : c = next ∨ Within base.size after.size c)
      (hNode : nodes[c.toNat]? = some node) : ∀ n ∈ node.targets, n = next ∨ Within base.size after.size n := by
    rcases hc with rfl | hc
    · rw [hAccept] at hNode
      obtain rfl := Option.some.inj hNode
      simp [LexNode.targets]
    · rw [hKeeps _ hc.1 hc.2] at hNode
      exact h.targets _ node hc.1 hNode
  induction hLeads with
  | refl => exact ha
  | left hNode _ ih => exact ih (hTargets ha hNode _ (by simp [LexNode.targets]))
  | right hNode _ ih => exact ih (hTargets ha hNode _ (by simp [LexNode.targets]))
  | chars hNode _ _ ih => exact ih (hTargets ha hNode _ (by simp [LexNode.targets]))

/-- The automaton of a token is a fragment of nodes that continues at one that accepts the token. -/
theorem addToken_fragment (arena : LexArena) (symbol : Symbol) (pattern : Pattern)
    (hSize : (arena.addToken symbol pattern).2.size ≤ 2 ^ 32)
    (hKeeps : nodes.Keeps arena.size (arena.addToken symbol pattern).2) :
    ∃ (base : LexArena) (accept : UInt32), arena.addToken symbol pattern = base.addPattern accept pattern ∧
      nodes.Keeps base.size (base.addPattern accept pattern).2 ∧ nodes[accept.toNat]? = some (.accept symbol) ∧
      accept.toNat < base.size := by
  rw [addToken] at hSize hKeeps ⊢
  simp only [add] at hSize hKeeps ⊢
  obtain ⟨base, hBase⟩ : ∃ base : LexArena, base = arena.push (.accept symbol) := ⟨_, rfl⟩
  rw [← hBase] at hSize hKeeps ⊢
  have hBaseSize : base.size = arena.size + 1 := by rw [hBase, Array.size_push]
  have hAdds := addPattern_adds base arena.size.toUInt32 pattern hSize
  have hLe := hAdds.size_le
  have hIndex := Adds.toNat_size (a := arena) (by omega)
  refine ⟨base, arena.size.toUInt32, rfl, fun i hi hBound => hKeeps i (by omega) hBound, ?_, by omega⟩
  rw [hIndex, hKeeps _ (Nat.le_refl _) (by omega), hAdds.old _ (by omega), hBase]
  simp

/-- The only accepting node that a fragment leads to is the one that it continues at. -/
theorem Adds.accepts {base after : LexArena} {next first n : UInt32} {symbol s : Symbol} {text : List Char}
    (h : Adds base next [first] after) (hKeeps : nodes.Keeps base.size after)
    (hAccept : nodes[next.toNat]? = some (.accept symbol)) (hLeads : nodes.Leads first text n)
    (hs : nodes.accepted? n = some s) : n = next := by
  rw [accepted?_eq_some] at hs
  refine (h.stays hKeeps hAccept hLeads (h.entries _ List.mem_cons_self)).resolve_right fun hn => ?_
  rw [hKeeps _ hn.1 hn.2] at hs
  exact h.quiet _ s hn.1 hs

theorem addToken_recognizes (arena : LexArena) (symbol : Symbol) (pattern : Pattern)
    (hSize : (arena.addToken symbol pattern).2.size ≤ 2 ^ 32)
    (hKeeps : nodes.Keeps arena.size (arena.addToken symbol pattern).2) :
    nodes.Recognizes (arena.addToken symbol pattern).1 symbol pattern := by
  obtain ⟨base, accept, hEq, hInner, hAccept, -⟩ := addToken_fragment arena symbol pattern hSize hKeeps
  rw [hEq] at hSize ⊢
  have hAdds := addPattern_adds base accept pattern hSize
  refine ⟨fun text n s hLeads hs => ?_, fun text hMatches => ⟨_, addPattern_leads _ _ pattern hSize hInner text hMatches, ?_⟩,
    fun text hText => ?_⟩
  · obtain rfl := hAdds.accepts hInner hAccept hLeads hs
    rw [accepted?_eq_some, hAccept] at hs
    exact (LexNode.accept.inj (Option.some.inj hs)).symm
  · rw [accepted?_eq_some, hAccept]
  · subst hText
    rw [addPattern] at hSize hInner ⊢
    exact ⟨_, addLiteral_chain hSize hInner, hAccept⟩

end LexArena
end Reparse
