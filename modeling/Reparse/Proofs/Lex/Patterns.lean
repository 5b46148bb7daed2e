import Reparse.Proofs.Lex.Construction
/-!
# Automata and patterns accept the same texts

A pattern is read in two ways: `matchesAll` follows the offsets where a match may end, and `addPattern` builds an automaton.
The first one decides `Matches`. The second one does not know a choice of nothing: no text matches it, but its automaton goes
on as if it were not there, like that of an empty sequence. With empty sequences for empty choices the two agree: a way out
of a fragment has to leave it for the node that it continues at, over a text that the pattern matches, and for a loop this
follows by induction on the length of the way.
-/
namespace Reparse

namespace Pattern

variable {p : Pattern} {text front back mid : List Char} {starts : Offsets} {start stop : Nat}

/-! ## All ends of matches are found -/

theorem Segment.split (h : Segment text start (front ++ back) stop) :
    Segment text start front (start + front.length) ∧ Segment text (start + front.length) back stop := by
  have hDrop := h.drop_eq
  have hStop := h.stop_eq
  rw [List.append_assoc] at hDrop
  rw [List.length_append] at hStop
  have hMid : text.drop (start + front.length) = back ++ text.drop stop := by
    rw [← List.drop_drop, hDrop, List.drop_left]
  exact ⟨⟨by rw [hDrop, hMid], rfl⟩, hMid, by omega⟩

theorem Segment.stop_le (h : Segment text start mid stop) (hStart : start ≤ text.length) : stop ≤ text.length := by
  have hLength := congrArg List.length h.drop_eq
  have hStop := h.stop_eq
  rw [List.length_append, List.length_drop, List.length_drop] at hLength
  omega

theorem ends_le (p : Pattern) (hStarts : ∀ n ∈ starts, n ≤ text.length) : ∀ n ∈ ends text p starts, n ≤ text.length := by
  intro n hn
  obtain ⟨start, hMem, mid, hSegment, -⟩ := ends_matches text p starts n hn
  exact hSegment.stop_le (hStarts start hMem)

theorem mem_append_unreached (reached : Offsets) {new : Offsets} (h : stop ∈ new) : stop ∈ reached ++ unreached reached new := by
  rw [List.mem_append, unreached, List.mem_eraseDups, List.mem_filter]
  by_cases hReached : stop ∈ reached
  · exact .inl hReached
  · exact .inr ⟨h, by simpa using hReached⟩

theorem subset_closure (step : Offsets → Offsets) (fuel : Nat) (reached frontier : Offsets) :
    ∀ n ∈ reached, n ∈ closure step fuel reached frontier := by
  fun_induction closure step fuel reached frontier with
  | case1 => exact fun n hn => hn
  | case2 => exact fun n hn => hn
  | case3 fuel reached frontier _ ih => exact fun n hn => ih n (List.mem_append_left _ hn)

/-- Each round but the last one adds an offset of the text, so as many rounds as there are offsets leave none to be
reached. -/
theorem closure_closed {step : Offsets → Offsets} {R : Nat → Nat → Prop} (bound : Nat) {fuel : Nat} {reached frontier : Offsets}
    (hStep : ∀ from_ : Offsets, (∀ n ∈ from_, n ≤ bound) → ∀ m ∈ from_, ∀ n, R m n → n ∈ step from_)
    (hBound : ∀ from_ : Offsets, (∀ n ∈ from_, n ≤ bound) → ∀ n ∈ step from_, n ≤ bound)
    (hReached : ∀ n ∈ reached, n ≤ bound) (hFrontier : ∀ n ∈ frontier, n ≤ bound)
    (hFuel : bound + 1 ≤ fuel + reached.toFinset.card)
    (hDone : ∀ m ∈ reached, m ∈ frontier ∨ ∀ n, R m n → n ∈ reached) :
    ∀ m ∈ closure step fuel reached frontier, ∀ n, R m n → n ∈ closure step fuel reached frontier := by
  fun_induction closure step fuel reached frontier with
  | case1 frontier reached =>
    intro m hm n hn
    have hHere : ∀ k ∈ [m], k ≤ bound := List.forall_mem_singleton.mpr (hReached m hm)
    have hLe : n ≤ bound := hBound [m] hHere n (hStep [m] hHere m List.mem_cons_self n hn)
    have hSubset : reached.toFinset ⊆ Finset.range (bound + 1) := fun k hk =>
      Finset.mem_range.mpr (Nat.lt_succ_of_le (hReached k (List.mem_toFinset.mp hk)))
    have hAll := Finset.eq_of_subset_of_card_le hSubset (by rw [Finset.card_range]; omega)
    rw [← List.mem_toFinset, hAll]
    exact Finset.mem_range.mpr (Nat.lt_succ_of_le hLe)
  | case2 fuel reached frontier hNone =>
    intro m hm n hn
    rcases hDone m hm with hm | hm
    · have hMem := mem_append_unreached reached (hStep frontier hFrontier m hm n hn)
      rwa [hNone, List.append_nil] at hMem
    · exact hm n hn
  | case3 fuel reached frontier hNew ih =>
    have hUnreached : ∀ n ∈ unreached reached (step frontier), n ≤ bound ∧ n ∉ reached := by
      intro n hn
      refine ⟨hBound frontier hFrontier n (mem_of_mem_unreached hn), ?_⟩
      rw [unreached, List.mem_eraseDups, List.mem_filter] at hn
      simpa using hn.2
    refine ih (fun n hn => ?_) (fun n hn => (hUnreached n hn).1) ?_ fun m hm => ?_
    · exact (List.mem_append.mp hn).elim (hReached n) fun hn => (hUnreached n hn).1
    · obtain ⟨k, hk⟩ := List.exists_mem_of_ne_nil _ hNew
      have hLt : reached.toFinset.card < (reached ++ unreached reached (step frontier)).toFinset.card := by
        refine Finset.card_lt_card (Finset.ssubset_iff_of_subset ?_ |>.mpr ⟨k, ?_, ?_⟩)
        · rw [List.toFinset_append]
          exact Finset.subset_union_left
        · exact List.mem_toFinset.mpr (List.mem_append_right _ hk)
        · exact fun hMem => (hUnreached k hk).2 (List.mem_toFinset.mp hMem)
      omega
    · rcases List.mem_append.mp hm with hm | hm
      · refine .inr fun n hn => ?_
        rcases hDone m hm with hm | hm
        · exact mem_append_unreached _ (hStep frontier hFrontier m hm n hn)
        · exact List.mem_append_left _ (hm n hn)
      · exact .inl hm

/-- A set of offsets that one more match does not leave is not left by any number of them. -/
theorem Matches.star_closed {P : Nat → Prop} (hStep : ∀ m n mid, P m → Segment text m mid n → p.Matches mid → P n)
    (h : (star p).Matches mid) : ∀ m n, P m → Segment text m mid n → P n := by
  generalize hq : star p = q at h
  induction h with
  | star_nil =>
    intro m n hm hSegment
    have hStop := hSegment.stop_eq
    rw [List.length_nil, Nat.add_zero] at hStop
    exact hStop ▸ hm
  | star_cons hFirst _ _ ih =>
    obtain rfl := Pattern.star.inj hq
    intro m n hm hSegment
    obtain ⟨hFront, hBack⟩ := hSegment.split
    exact ih rfl _ n (hStep m _ _ hm hFront hFirst) hBack
  | _ => cases hq

theorem closure_star {item : Pattern} {once : Offsets}
    (hItem : ∀ (starts : Offsets) (stop : Nat), (∀ n ∈ starts, n ≤ text.length) → EndsAt text item.Matches starts stop →
      stop ∈ ends text item starts)
    (hOnce : ∀ n ∈ once, n ≤ text.length) (h : (star item).Matches mid) (hStart : start ∈ once)
    (hSegment : Segment text start mid stop) : stop ∈ closure (ends text item) (text.length + 1) once once := by
  have hClosed : ∀ m ∈ closure (ends text item) (text.length + 1) once once, ∀ n, EndsAt text item.Matches [m] n →
      n ∈ closure (ends text item) (text.length + 1) once once := by
    refine closure_closed text.length (fun from_ hFrom m hm n hn => hItem from_ n hFrom ?_) (fun _ => ends_le item) hOnce hOnce
      (Nat.le_add_right _ _) fun m hm => .inl hm
    obtain ⟨k, hk, hEnds⟩ := hn
    rw [List.mem_singleton.mp hk] at hEnds
    exact ⟨m, hm, hEnds⟩
  refine Matches.star_closed (P := (· ∈ closure (ends text item) (text.length + 1) once once)) ?_ h start stop
    (subset_closure _ _ _ _ _ hStart) hSegment
  exact fun m n mid hm hn hMatches => hClosed m hm n ⟨m, List.mem_cons_self, mid, hn, hMatches⟩

mutual

theorem mem_ends (text : List Char) : ∀ (p : Pattern) (starts : Offsets) (stop : Nat), (∀ n ∈ starts, n ≤ text.length) →
    EndsAt text p.Matches starts stop → stop ∈ ends text p starts
  | .literal word, starts, stop, hStarts, ⟨start, hMem, mid, hSegment, hMatches⟩ => by
    cases hMatches
    rw [ends, List.mem_map]
    refine ⟨start, List.mem_filter.mpr ⟨hMem, ?_⟩, hSegment.stop_eq.symm⟩
    rw [hSegment.drop_eq]
    exact List.isPrefixOf_iff_prefix.mpr (List.prefix_append _ _)
  | .chars cls, starts, stop, hStarts, ⟨start, hMem, mid, hSegment, hMatches⟩ => by
    cases hMatches with | chars hx => ?_
    rw [ends, List.mem_map]
    refine ⟨start, List.mem_filter.mpr ⟨hMem, ?_⟩, hSegment.stop_eq.symm⟩
    rw [← List.head?_drop, hSegment.drop_eq]
    exact hx
  | .seq items, starts, stop, hStarts, h => by
    rw [ends]
    exact mem_seqEnds text items starts stop hStarts h
  | .choice items, starts, stop, hStarts, ⟨start, hMem, mid, hSegment, hMatches⟩ => by
    cases hMatches with | choice hp hMatches => ?_
    rw [ends, List.mem_eraseDups]
    exact mem_choiceEnds text items starts stop hStarts _ hp ⟨start, hMem, mid, hSegment, hMatches⟩
  | .star item, starts, stop, hStarts, ⟨start, hMem, mid, hSegment, hMatches⟩ => by
    rw [ends]
    exact closure_star (mem_ends text item) hStarts hMatches hMem hSegment
  | .plus item, starts, stop, hStarts, ⟨start, hMem, mid, hSegment, hMatches⟩ => by
    cases hMatches with | plus hFirst hRest => ?_
    obtain ⟨hFront, hBack⟩ := hSegment.split
    rw [ends]
    exact closure_star (mem_ends text item) (ends_le item hStarts) hRest
      (mem_ends text item starts _ hStarts ⟨start, hMem, _, hFront, hFirst⟩) hBack
  | .optional item, starts, stop, hStarts, ⟨start, hMem, mid, hSegment, hMatches⟩ => by
    rw [ends]
    cases hMatches with
    | optional_none =>
      have hStop := hSegment.stop_eq
      rw [List.length_nil, Nat.add_zero] at hStop
      exact List.mem_append_left _ (hStop ▸ hMem)
    | optional_some hItem => exact mem_append_unreached _ (mem_ends text item starts stop hStarts ⟨start, hMem, mid, hSegment, hItem⟩)

theorem mem_seqEnds (text : List Char) : ∀ (items : List Pattern) (starts : Offsets) (stop : Nat),
    (∀ n ∈ starts, n ≤ text.length) → EndsAt text (Matches (.seq items)) starts stop → stop ∈ seqEnds text items starts
  | [], starts, stop, hStarts, ⟨start, hMem, mid, hSegment, hMatches⟩ => by
    cases hMatches
    have hStop := hSegment.stop_eq
    rw [List.length_nil, Nat.add_zero] at hStop
    rw [seqEnds]
    exact hStop ▸ hMem
  | p :: rest, starts, stop, hStarts, ⟨start, hMem, mid, hSegment, hMatches⟩ => by
    cases hMatches with | seq_cons hFirst hRest => ?_
    obtain ⟨hFront, hBack⟩ := hSegment.split
    rw [seqEnds]
    exact mem_seqEnds text rest _ stop (ends_le p hStarts)
      ⟨_, mem_ends text p starts _ hStarts ⟨start, hMem, _, hFront, hFirst⟩, _, hBack, hRest⟩

theorem mem_choiceEnds (text : List Char) : ∀ (items : List Pattern) (starts : Offsets) (stop : Nat),
    (∀ n ∈ starts, n ≤ text.length) → ∀ p ∈ items, EndsAt text p.Matches starts stop → stop ∈ choiceEnds text items starts
  | [], _, _, _, p, hp, _ => by cases hp
  | p :: rest, starts, stop, hStarts, q, hq, h => by
    rw [choiceEnds, List.mem_append]
    rcases List.mem_cons.mp hq with hEq | hq
    · exact .inl (mem_ends text p starts stop hStarts (hEq ▸ h))
    · exact .inr (mem_choiceEnds text rest starts stop hStarts q hq h)

end

/-- The evaluation of a pattern decides which texts it matches. -/
theorem matchesAll_iff : p.matchesAll text = true ↔ p.Matches text := by
  refine ⟨matches_of_matchesAll, fun h => ?_⟩
  rw [matchesAll, List.contains_iff_mem]
  exact mem_ends text p [0] _ (by simp) ⟨0, List.mem_cons_self, text, ⟨by simp, by simp⟩, h⟩

/-! ## Empty choices -/

mutual

/-- The pattern with the empty sequence for every empty choice in it. -/
def filled : Pattern → Pattern
  | literal text => literal text
  | chars cls => chars cls
  | seq items => seq (filledAll items)
  | choice items => if items.isEmpty then seq [] else choice (filledAll items)
  | star item => star (filled item)
  | plus item => plus (filled item)
  | optional item => optional (filled item)

def filledAll : List Pattern → List Pattern
  | [] => []
  | p :: rest => filled p :: filledAll rest

end

mutual

/-- Whether there is a choice of nothing in the pattern. -/
def hasEmptyChoice : Pattern → Bool
  | literal _ => false
  | chars _ => false
  | seq items => anyEmptyChoice items
  | choice items => items.isEmpty || anyEmptyChoice items
  | star item => hasEmptyChoice item
  | plus item => hasEmptyChoice item
  | optional item => hasEmptyChoice item

def anyEmptyChoice : List Pattern → Bool
  | [] => false
  | p :: rest => hasEmptyChoice p || anyEmptyChoice rest

end

mutual

theorem filled_eq_self : ∀ p : Pattern, p.hasEmptyChoice = false → p.filled = p
  | literal _, _ => by rw [filled]
  | chars _, _ => by rw [filled]
  | seq items, h => by
    rw [hasEmptyChoice] at h
    rw [filled, filledAll_eq_self items h]
  | choice items, h => by
    rw [hasEmptyChoice, Bool.or_eq_false_iff] at h
    rw [filled, if_neg (by simp [h.1]), filledAll_eq_self items h.2]
  | star item, h => by
    rw [hasEmptyChoice] at h
    rw [filled, filled_eq_self item h]
  | plus item, h => by
    rw [hasEmptyChoice] at h
    rw [filled, filled_eq_self item h]
  | optional item, h => by
    rw [hasEmptyChoice] at h
    rw [filled, filled_eq_self item h]

theorem filledAll_eq_self : ∀ items : List Pattern, anyEmptyChoice items = false → filledAll items = items
  | [], _ => by rw [filledAll]
  | p :: rest, h => by
    rw [anyEmptyChoice, Bool.or_eq_false_iff] at h
    rw [filledAll, filled_eq_self p h.1, filledAll_eq_self rest h.2]

end

theorem filled_mem_filledAll {items : List Pattern} (h : p ∈ items) : p.filled ∈ filledAll items := by
  induction items with
  | nil => cases h
  | cons q rest ih =>
    rw [filledAll]
    rcases List.mem_cons.mp h with rfl | h
    · exact List.mem_cons_self
    · exact List.mem_cons_of_mem _ (ih h)

end Pattern

namespace LexArena

variable {nodes : LexArena}

mutual

/-- The nodes for a pattern do not tell an empty choice from an empty sequence. -/
theorem addPattern_filled (arena : LexArena) (next : UInt32) : ∀ p : Pattern,
    arena.addPattern next p.filled = arena.addPattern next p
  | .literal _ => by rw [Pattern.filled]
  | .chars _ => by rw [Pattern.filled]
  | .seq items => by rw [Pattern.filled, addPattern, addPattern, addSeq_filled arena next items]
  | .choice items => by
    rw [Pattern.filled]
    split
    next hEmpty =>
      rw [List.isEmpty_iff.mp hEmpty, addPattern, addPattern, addSeq, addChoices]
      rfl
    next => rw [addPattern, addPattern, addChoices_filled arena next items]
  | .star item => by
    rw [Pattern.filled, addPattern, addPattern]
    dsimp only
    rw [addPattern_filled _ _ item]
  | .plus item => by
    rw [Pattern.filled, addPattern, addPattern]
    dsimp only
    rw [addPattern_filled _ _ item]
  | .optional item => by rw [Pattern.filled, addPattern, addPattern, addPattern_filled arena next item]

theorem addSeq_filled (arena : LexArena) (next : UInt32) : ∀ items : List Pattern,
    arena.addSeq next (Pattern.filledAll items) = arena.addSeq next items
  | [] => by rw [Pattern.filledAll]
  | p :: rest => by
    rw [Pattern.filledAll, addSeq, addSeq, addSeq_filled arena next rest]
    dsimp only
    rw [addPattern_filled _ _ p]

theorem addChoices_filled (arena : LexArena) (next : UInt32) : ∀ items : List Pattern,
    arena.addChoices next (Pattern.filledAll items) = arena.addChoices next items
  | [] => by rw [Pattern.filledAll]
  | p :: rest => by
    rw [Pattern.filledAll, addChoices, addChoices, addPattern_filled arena next p]
    dsimp only
    rw [addChoices_filled _ next rest]

end

/-! ## The length of a way -/

/-- `Leads` with the number of nodes that the way goes through. -/
inductive Way (nodes : LexArena) : Nat → UInt32 → List Char → UInt32 → Prop
  | refl (a : UInt32) : Way nodes 0 a [] a
  | left {k : Nat} {a b c d : UInt32} {text : List Char} :
    nodes[a.toNat]? = some (.split b c) → Way nodes k b text d → Way nodes (k + 1) a text d
  | right {k : Nat} {a b c d : UInt32} {text : List Char} :
    nodes[a.toNat]? = some (.split b c) → Way nodes k c text d → Way nodes (k + 1) a text d
  | chars {k : Nat} {a b d : UInt32} {cls : CharClass} {x : Char} {text : List Char} :
    nodes[a.toNat]? = some (.chars cls b) → cls.contains x = true → Way nodes k b text d →
      Way nodes (k + 1) a (x :: text) d

theorem Leads.exists_way {a b : UInt32} {text : List Char} (h : nodes.Leads a text b) : ∃ k, nodes.Way k a text b := by
  induction h with
  | refl a => exact ⟨0, .refl a⟩
  | left hNode _ ih =>
    obtain ⟨k, hWay⟩ := ih
    exact ⟨k + 1, .left hNode hWay⟩
  | right hNode _ ih =>
    obtain ⟨k, hWay⟩ := ih
    exact ⟨k + 1, .right hNode hWay⟩
  | chars hNode hx _ ih =>
    obtain ⟨k, hWay⟩ := ih
    exact ⟨k + 1, .chars hNode hx hWay⟩

/-- No way leads on from an accepting node. -/
theorem Way.of_accept {k : Nat} {a b : UInt32} {text : List Char} {symbol : Symbol} (h : nodes.Way k a text b)
    (hAccept : nodes[a.toNat]? = some (.accept symbol)) : text = [] := by
  cases h with
  | refl => rfl
  | left hNode => rw [hAccept] at hNode; cases hNode
  | right hNode => rw [hAccept] at hNode; cases hNode
  | chars hNode => rw [hAccept] at hNode; cases hNode

/-- From a split a way goes to one of its two nodes, unless it ends. -/
theorem Way.of_split {k : Nat} {a b c d : UInt32} {text : List Char} (h : nodes.Way k a text d)
    (hSplit : nodes[a.toNat]? = some (.split b c)) (hd : d ≠ a) :
    ∃ j < k, nodes.Way j b text d ∨ nodes.Way j c text d := by
  cases h with
  | refl => exact absurd rfl hd
  | left hNode hWay =>
    obtain ⟨rfl, rfl⟩ := LexNode.split.inj (Option.some.inj (hSplit.symm.trans hNode))
    exact ⟨_, Nat.lt_succ_self _, .inl hWay⟩
  | right hNode hWay =>
    obtain ⟨rfl, rfl⟩ := LexNode.split.inj (Option.some.inj (hSplit.symm.trans hNode))
    exact ⟨_, Nat.lt_succ_self _, .inr hWay⟩
  | chars hNode => rw [hSplit] at hNode; cases hNode

theorem Way.of_chars {k : Nat} {a b d : UInt32} {cls : CharClass} {text : List Char} (h : nodes.Way k a text d)
    (hChars : nodes[a.toNat]? = some (.chars cls b)) (hd : d ≠ a) :
    ∃ x rest, ∃ j < k, text = x :: rest ∧ cls.contains x = true ∧ nodes.Way j b rest d := by
  cases h with
  | refl => exact absurd rfl hd
  | left hNode => rw [hChars] at hNode; cases hNode
  | right hNode => rw [hChars] at hNode; cases hNode
  | chars hNode hx hWay =>
    obtain ⟨rfl, rfl⟩ := LexNode.chars.inj (Option.some.inj (hChars.symm.trans hNode))
    exact ⟨_, _, _, Nat.lt_succ_self _, rfl, hx, hWay⟩

/-! ## Ways out of a fragment -/

/-- A way over a text that passes `next`, having consumed one of the texts `M` by then. -/
def Exits (nodes : LexArena) (M : List Char → Prop) (k : Nat) (next : UInt32) (text : List Char) (target : UInt32) : Prop :=
  ∃ front back, ∃ j ≤ k, text = front ++ back ∧ M front ∧ nodes.Way j next back target

variable {M M' : List Char → Prop} {k j : Nat} {next target : UInt32} {text : List Char}

theorem Exits.mono (h : nodes.Exits M j next text target) (hM : ∀ text, M text → M' text) (hk : j ≤ k) :
    nodes.Exits M' k next text target := by
  obtain ⟨front, back, i, hi, hText, hFront, hWay⟩ := h
  exact ⟨front, back, i, Nat.le_trans hi hk, hText, hM _ hFront, hWay⟩

/-- What is outside is no node of the fragment. -/
theorem ne_of_outside {lo hi : Nat} {n : UInt32} (hTarget : ¬Within lo hi target) (hn : Within lo hi n) : target ≠ n :=
  fun h => hTarget (h ▸ hn)

theorem addLiteral_exits (arena : LexArena) (next : UInt32) : ∀ (word : List Char),
    (arena.addLiteral next word).2.size ≤ 2 ^ 32 → nodes.Keeps arena.size (arena.addLiteral next word).2 →
    ¬Within arena.size (arena.addLiteral next word).2.size target → ∀ k text,
      nodes.Way k (arena.addLiteral next word).1 text target → nodes.Exits (· = word) k next text target
  | [], _, _, _, k, text, hWay => ⟨[], text, k, Nat.le_refl _, rfl, rfl, hWay⟩
  | x :: rest, hSize, hKeeps, hTarget, k, text, hWay => by
    rw [addLiteral] at hSize hKeeps hTarget hWay
    simp only [add, Array.size_push] at hSize hKeeps hTarget hWay
    have hLe := (addLiteral_adds arena next rest (by omega)).size_le
    have hIndex := Adds.toNat_size (a := (arena.addLiteral next rest).2) (by omega)
    have hNode := hKeeps.last hLe (by omega)
    obtain ⟨y, back, j, hj, rfl, hy, hBack⟩ := hWay.of_chars hNode (ne_of_outside hTarget ⟨by omega, by omega⟩)
    obtain rfl := contains_single.mp hy
    obtain ⟨front, back, i, hi, rfl, rfl, hExit⟩ := addLiteral_exits arena next rest (by omega) hKeeps.of_push
      (fun h => hTarget (h.mono (Nat.le_refl _) (Nat.le_succ _))) j back hBack
    exact ⟨y :: front, back, i, by omega, rfl, rfl, hExit⟩

/-- From the splits of a choice a way goes to one of its entries. -/
theorem addSplits_exits {arena : LexArena} {entries : List UInt32} {lo : Nat} (hEntries : entries ≠ [])
    (hSize : (arena.addSplits next entries).2.size ≤ 2 ^ 32) (hLo : lo ≤ arena.size)
    (hKeeps : nodes.Keeps lo (arena.addSplits next entries).2)
    (hTarget : ¬Within lo (arena.addSplits next entries).2.size target)
    (hWay : nodes.Way k (arena.addSplits next entries).1 text target) :
    ∃ entry ∈ entries, ∃ j ≤ k, nodes.Way j entry text target := by
  fun_induction addSplits arena next entries generalizing k with
  | case1 => exact absurd rfl hEntries
  | case2 entry => exact ⟨entry, List.mem_singleton_self _, k, Nat.le_refl _, hWay⟩
  | case3 entry rest hRest others arena' hOthers ih =>
    have hLe := size_le_addSplits arena next rest
    rw [hOthers] at ih hLe
    dsimp only at hLe
    simp only [add, Array.size_push] at hSize hKeeps hTarget hWay
    have hIndex := Adds.toNat_size (a := arena') (by omega)
    have hSplit := hKeeps.last (by omega) (by omega)
    obtain ⟨j, hj, hFirst | hLater⟩ := hWay.of_split hSplit (ne_of_outside hTarget ⟨by omega, by omega⟩)
    · exact ⟨entry, List.mem_cons_self, j, hj.le, hFirst⟩
    · obtain ⟨found, hFound, i, hi, hWay⟩ := ih (by simpa using hRest) (by dsimp only; omega) hKeeps.of_push
        (fun h => hTarget (h.mono (Nat.le_refl _) (Nat.le_succ _))) hLater
      exact ⟨found, List.mem_cons_of_mem _ hFound, i, by omega, hWay⟩

/-- A way from a fork goes through the body any number of times. The body may match the empty text, so it is the length of
the way that gets less, and not that of the text. -/
theorem fork_exits {fork body : UInt32} {item : Pattern} (hFork : nodes[fork.toNat]? = some (.split body next))
    (hTarget : target ≠ fork)
    (hItem : ∀ k text, nodes.Way k body text target → nodes.Exits item.Matches k fork text target)
    (hWay : nodes.Way k fork text target) : nodes.Exits (Pattern.star item).Matches k next text target := by
  induction k using Nat.strong_induction_on generalizing text with
  | _ k ih =>
    obtain ⟨j, hj, hBody | hNext⟩ := hWay.of_split hFork hTarget
    · obtain ⟨front, back, i, hi, rfl, hFront, hBack⟩ := hItem j text hBody
      obtain ⟨more, rest, i', hi', rfl, hMore, hExit⟩ := ih i (by omega) hBack
      exact ⟨front ++ more, rest, i', by omega, (List.append_assoc ..).symm, .star_cons hFront hMore, hExit⟩
    · exact ⟨[], text, j, hj.le, rfl, .star_nil item, hNext⟩

mutual

theorem addPattern_exits (arena : LexArena) (next : UInt32) :
    ∀ p : Pattern, (arena.addPattern next p).2.size ≤ 2 ^ 32 → nodes.Keeps arena.size (arena.addPattern next p).2 →
      ¬Within arena.size (arena.addPattern next p).2.size target → ∀ k text,
        nodes.Way k (arena.addPattern next p).1 text target → nodes.Exits p.filled.Matches k next text target
  | .literal word, hSize, hKeeps, hTarget, k, text, hWay => by
    rw [addPattern] at hSize hKeeps hTarget hWay
    rw [Pattern.filled]
    refine (addLiteral_exits arena next word hSize hKeeps hTarget k text hWay).mono ?_ (Nat.le_refl _)
    rintro _ rfl
    exact .literal _
  | .chars cls, hSize, hKeeps, hTarget, k, text, hWay => by
    rw [addPattern] at hSize hKeeps hTarget hWay
    rw [Pattern.filled]
    simp only [add, Array.size_push] at hSize hKeeps hTarget hWay
    have hIndex := Adds.toNat_size (a := arena) (by omega)
    have hNode := hKeeps.last (Nat.le_refl _) (by omega)
    obtain ⟨x, rest, j, hj, rfl, hx, hRest⟩ := hWay.of_chars hNode (ne_of_outside hTarget ⟨by omega, by omega⟩)
    exact ⟨[x], rest, j, hj.le, rfl, .chars hx, hRest⟩
  | .seq items, hSize, hKeeps, hTarget, k, text, hWay => by
    rw [addPattern] at hSize hKeeps hTarget hWay
    rw [Pattern.filled]
    exact addSeq_exits arena next items hSize hKeeps hTarget k text hWay
  | .choice items, hSize, hKeeps, hTarget, k, text, hWay => by
    rw [addPattern] at hSize hKeeps hTarget hWay
    rw [Pattern.filled]
    dsimp only at hSize hKeeps hTarget hWay
    split
    next hEmpty =>
      rw [List.isEmpty_iff.mp hEmpty, addChoices, addSplits] at hWay
      exact ⟨[], text, k, Nat.le_refl _, rfl, .seq_nil, hWay⟩
    next hSome =>
      have hChoices := Nat.le_trans (size_le_addSplits _ _ _) hSize
      have hLe := (addChoices_adds arena next items hChoices).size_le
      have hEntries : (arena.addChoices next items).1 ≠ [] := by
        cases items with
        | nil => simp at hSome
        | cons p rest => simp [addChoices]
      obtain ⟨entry, hEntry, j, hj, hWay⟩ := addSplits_exits hEntries hSize hLe hKeeps hTarget hWay
      obtain ⟨p, hp, hExits⟩ := addChoices_exits arena next items hChoices (addSplits_keeps hKeeps)
        (fun h => hTarget (h.mono (Nat.le_refl _) (size_le_addSplits _ _ _))) entry hEntry j text hWay
      exact hExits.mono (fun _ => .choice (Pattern.filled_mem_filledAll hp)) hj
  | .optional item, hSize, hKeeps, hTarget, k, text, hWay => by
    rw [addPattern] at hSize hKeeps hTarget hWay
    rw [Pattern.filled]
    simp only [add, Array.size_push] at hSize hKeeps hTarget hWay
    have hLe := (addPattern_adds arena next item (by omega)).size_le
    have hIndex := Adds.toNat_size (a := (arena.addPattern next item).2) (by omega)
    have hSplit := hKeeps.last hLe (by omega)
    obtain ⟨j, hj, hItem | hNext⟩ := hWay.of_split hSplit (ne_of_outside hTarget ⟨by omega, by omega⟩)
    · exact (addPattern_exits arena next item (by omega) hKeeps.of_push
        (fun h => hTarget (h.mono (Nat.le_refl _) (Nat.le_succ _))) j text hItem).mono (fun _ => .optional_some) hj.le
    · exact ⟨[], text, j, hj.le, rfl, .optional_none _, hNext⟩
  | .star item, hSize, hKeeps, hTarget, k, text, hWay => by
    rw [addPattern] at hSize hKeeps hTarget hWay
    rw [Pattern.filled]
    simp only [add, Array.size_setIfInBounds] at hSize hKeeps hTarget hWay
    have hLe := (addPattern_adds (arena.push (.split next next)) arena.size.toUInt32 item hSize).size_le
    rw [Array.size_push] at hLe
    obtain ⟨hFork, hInner⟩ := Keeps.of_loop (by omega) hLe hKeeps
    rw [← Array.size_push (v := LexNode.split next next)] at hInner
    have hIndex := Adds.toNat_size (a := arena) (by omega)
    exact fork_exits hFork (ne_of_outside hTarget ⟨by omega, by omega⟩) (addPattern_exits _ _ item hSize hInner
      fun h => hTarget (h.mono (by simp) (Nat.le_refl _))) hWay
  | .plus item, hSize, hKeeps, hTarget, k, text, hWay => by
    rw [addPattern] at hSize hKeeps hTarget hWay
    rw [Pattern.filled]
    simp only [add, Array.size_setIfInBounds] at hSize hKeeps hTarget hWay
    have hLe := (addPattern_adds (arena.push (.split next next)) arena.size.toUInt32 item hSize).size_le
    rw [Array.size_push] at hLe
    obtain ⟨hFork, hInner⟩ := Keeps.of_loop (by omega) hLe hKeeps
    rw [← Array.size_push (v := LexNode.split next next)] at hInner
    have hIndex := Adds.toNat_size (a := arena) (by omega)
    have hItem := addPattern_exits _ _ item hSize hInner fun h => hTarget (h.mono (by simp) (Nat.le_refl _))
    obtain ⟨front, back, j, hj, rfl, hFront, hBack⟩ := hItem k text hWay
    obtain ⟨more, rest, i, hi, rfl, hMore, hExit⟩ :=
      fork_exits hFork (ne_of_outside hTarget ⟨by omega, by omega⟩) hItem hBack
    exact ⟨front ++ more, rest, i, by omega, (List.append_assoc ..).symm, .plus hFront hMore, hExit⟩

theorem addSeq_exits (arena : LexArena) (next : UInt32) :
    ∀ items : List Pattern, (arena.addSeq next items).2.size ≤ 2 ^ 32 →
      nodes.Keeps arena.size (arena.addSeq next items).2 → ¬Within arena.size (arena.addSeq next items).2.size target →
        ∀ k text, nodes.Way k (arena.addSeq next items).1 text target →
          nodes.Exits (Pattern.seq (Pattern.filledAll items)).Matches k next text target
  | [], _, _, _, k, text, hWay => by
    rw [addSeq] at hWay
    rw [Pattern.filledAll]
    exact ⟨[], text, k, Nat.le_refl _, rfl, .seq_nil, hWay⟩
  | p :: rest, hSize, hKeeps, hTarget, k, text, hWay => by
    rw [addSeq] at hSize hKeeps hTarget hWay
    rw [Pattern.filledAll]
    dsimp only at hSize hKeeps hTarget hWay
    have hAdds := addPattern_adds (arena.addSeq next rest).2 (arena.addSeq next rest).1 p hSize
    have hInner := Nat.le_trans hAdds.size_le hSize
    have hLe := (addSeq_adds arena next rest hInner).size_le
    obtain ⟨front, back, j, hj, rfl, hFront, hBack⟩ := addPattern_exits (arena.addSeq next rest).2
      (arena.addSeq next rest).1 p hSize (fun i hi hBound => hKeeps i (Nat.le_trans hLe hi) hBound)
      (fun h => hTarget (h.mono hLe (Nat.le_refl _))) k text hWay
    obtain ⟨more, rest', i, hi, rfl, hMore, hExit⟩ := addSeq_exits arena next rest hInner (hKeeps.of_adds hAdds)
      (fun h => hTarget (h.mono (Nat.le_refl _) hAdds.size_le)) j back hBack
    exact ⟨front ++ more, rest', i, by omega, (List.append_assoc ..).symm, .seq_cons hFront hMore, hExit⟩

theorem addChoices_exits (arena : LexArena) (next : UInt32) :
    ∀ items : List Pattern, (arena.addChoices next items).2.size ≤ 2 ^ 32 →
      nodes.Keeps arena.size (arena.addChoices next items).2 →
      ¬Within arena.size (arena.addChoices next items).2.size target → ∀ entry ∈ (arena.addChoices next items).1,
        ∀ k text, nodes.Way k entry text target → ∃ p ∈ items, nodes.Exits p.filled.Matches k next text target
  | [], _, _, _, entry, hEntry, _, _, _ => by
    rw [addChoices] at hEntry
    cases hEntry
  | p :: rest, hSize, hKeeps, hTarget, entry, hEntry, k, text, hWay => by
    rw [addChoices] at hSize hKeeps hTarget hEntry
    dsimp only at hSize hKeeps hTarget hEntry
    have hAdds := addChoices_adds (arena.addPattern next p).2 next rest hSize
    have hInner := Nat.le_trans hAdds.size_le hSize
    have hLe := (addPattern_adds arena next p hInner).size_le
    rcases List.mem_cons.mp hEntry with rfl | hEntry
    · exact ⟨p, List.mem_cons_self, addPattern_exits arena next p hInner (hKeeps.of_adds hAdds)
        (fun h => hTarget (h.mono (Nat.le_refl _) hAdds.size_le)) k text hWay⟩
    · obtain ⟨q, hq, hExits⟩ := addChoices_exits (arena.addPattern next p).2 next rest hSize
        (fun i hi hBound => hKeeps i (Nat.le_trans hLe hi) hBound) (fun h => hTarget (h.mono hLe (Nat.le_refl _)))
        entry hEntry k text hWay
      exact ⟨q, List.mem_cons_of_mem _ hq, hExits⟩

end

/-! ## Tokens -/

/-- The arena after more tokens. -/
def addTokens (arena : LexArena) (tokens : List (Symbol × Pattern)) : LexArena :=
  tokens.foldl (fun arena token => (arena.addToken token.1 token.2).2) arena

theorem addTokens_keeps {arena : LexArena} {tokens : List (Symbol × Pattern)} (hSize : (arena.addTokens tokens).size ≤ 2 ^ 32) :
    arena.size ≤ (arena.addTokens tokens).size ∧ ∀ i, i < arena.size → (arena.addTokens tokens)[i]? = arena[i]? := by
  induction tokens generalizing arena with
  | nil => exact ⟨Nat.le_refl _, fun _ _ => rfl⟩
  | cons token rest ih =>
    obtain ⟨hLe, hKept⟩ := ih hSize
    obtain ⟨hLt, hFirst⟩ := addToken_size_le arena token.1 token.2 (Nat.le_trans hLe hSize)
    refine ⟨Nat.le_trans hLt.le hLe, fun i hi => ?_⟩
    exact (hKept i (Nat.lt_trans hi hLt)).trans (hFirst i hi)

/-- An automaton accepts as its token just what the pattern matches, with empty sequences for empty choices. -/
theorem addToken_accepts_iff (arena : LexArena) (symbol : Symbol) (p : Pattern) (later : List (Symbol × Pattern))
    (hSize : ((arena.addToken symbol p).2.addTokens later).size ≤ 2 ^ 32) (text : List Char) :
    (∃ n, ((arena.addToken symbol p).2.addTokens later).Leads (arena.addToken symbol p).1 text n ∧
      ((arena.addToken symbol p).2.addTokens later).accepted? n = some symbol) ↔ p.filled.matchesAll text = true := by
  obtain ⟨hLater, hKept⟩ := addTokens_keeps hSize
  generalize (arena.addToken symbol p).2.addTokens later = nodes at *
  obtain ⟨base, accept, hEq, hKeeps, hAccept, hOutside⟩ :=
    addToken_fragment arena symbol p (Nat.le_trans hLater hSize) fun i _ hi => hKept i hi
  rw [hEq] at hLater ⊢
  have hFragment := Nat.le_trans hLater hSize
  rw [Pattern.matchesAll_iff]
  constructor
  · rintro ⟨n, hLeads, hAccepts⟩
    obtain rfl := (addPattern_adds base accept p hFragment).accepts hKeeps hAccept hLeads hAccepts
    obtain ⟨k, hWay⟩ := hLeads.exists_way
    obtain ⟨front, back, j, -, rfl, hFront, hBack⟩ := addPattern_exits base n p hFragment hKeeps
      (fun h => Nat.not_lt.mpr h.1 hOutside) k text hWay
    rwa [hBack.of_accept hAccept, List.append_nil]
  · intro h
    rw [← addPattern_filled] at hFragment hKeeps ⊢
    exact ⟨accept, addPattern_leads base accept p.filled hFragment hKeeps text h, accepted?_eq_some.mpr hAccept⟩

/-- Without empty choices, the pattern and its automaton agree. -/
theorem addToken_accepts_iff_matchesAll (arena : LexArena) (symbol : Symbol) {p : Pattern} (hp : p.hasEmptyChoice = false)
    (later : List (Symbol × Pattern)) (hSize : ((arena.addToken symbol p).2.addTokens later).size ≤ 2 ^ 32)
    (text : List Char) :
    (∃ n, ((arena.addToken symbol p).2.addTokens later).Leads (arena.addToken symbol p).1 text n ∧
      ((arena.addToken symbol p).2.addTokens later).accepted? n = some symbol) ↔ p.matchesAll text = true := by
  rw [addToken_accepts_iff arena symbol p later hSize, Pattern.filled_eq_self p hp]

/-- No text matches a choice of nothing before an `a`, but the automaton accepts the `a`. -/
theorem empty_choice_accepts : let p : Pattern := .seq [.choice [], .literal ['a']]
    (∃ n, (addToken #[] ⟨1⟩ p).2.Leads (addToken #[] ⟨1⟩ p).1 ['a'] n ∧
      (addToken #[] ⟨1⟩ p).2.accepted? n = some ⟨1⟩) ∧ p.matchesAll ['a'] = false :=
  ⟨(addToken_accepts_iff #[] ⟨1⟩ (.seq [.choice [], .literal ['a']]) [] (by decide) ['a']).mpr (by decide), by decide⟩

end LexArena
end Reparse
