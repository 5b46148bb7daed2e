import Reparse.Proofs.Table
/-!
# Classes hold what was written

A class is written as ranges in any order, their ends either way round. Normalizing leaves ranges from left to right with a code
point between one and the next, and they have the same characters. Of ranges in order only one can have a character, the first that
does not end before it, and bisection finds that one. So it is for every class that passes the check of a table.
-/
namespace Reparse

namespace CharClass

/-! ## Ranges in order -/

section

variable {ranges rest : List CharRange} {r last : CharRange} {c : Char}

/-- Some of the ranges has the character. -/
def Holds (ranges : List CharRange) (c : Char) : Prop := ∃ r ∈ ranges, r.1 ≤ c ∧ c ≤ r.2

/-- Ranges from left to right that have no character in common. -/
structure Sorted (ranges : List CharRange) : Prop where
  ends : ∀ r ∈ ranges, r.1 ≤ r.2
  order : ranges.Pairwise fun a b => a.2 < b.1

/-- Ranges from left to right with at least one code point between one and the next. -/
structure Apart (ranges : List CharRange) : Prop where
  ends : ∀ r ∈ ranges, r.1 ≤ r.2
  gaps : ranges.Pairwise fun a b => a.2.toNat + 1 < b.1.toNat

theorem Apart.sorted (h : Apart ranges) : Sorted ranges where
  ends := h.ends
  order := h.gaps.imp Nat.lt_of_succ_lt

theorem sorted_cons : Sorted (r :: rest) ↔ r.1 ≤ r.2 ∧ (∀ next ∈ rest, r.2 < next.1) ∧ Sorted rest := by
  constructor
  · rintro ⟨hEnds, hOrder⟩
    rw [List.forall_mem_cons] at hEnds
    rw [List.pairwise_cons] at hOrder
    exact ⟨hEnds.1, hOrder.1, hEnds.2, hOrder.2⟩
  · rintro ⟨hFirst, hBefore, hRest⟩
    exact ⟨List.forall_mem_cons.mpr ⟨hFirst, hRest.ends⟩, List.pairwise_cons.mpr ⟨hBefore, hRest.order⟩⟩

/-- The check looks at neighbours only; what they satisfy reaches as far as it is looked for. -/
theorem isSorted_iff : isSorted ranges = true ↔ Sorted ranges := by
  induction ranges with
  | nil => exact ⟨fun _ => ⟨by simp, .nil⟩, fun _ => rfl⟩
  | cons r rest ih =>
    cases rest with
    | nil => simp [isSorted, sorted_cons, ih.mp rfl]
    | cons next rest =>
      have hFirst : isSorted (r :: next :: rest) = true ↔ r.1 ≤ r.2 ∧ r.2 < next.1 ∧ isSorted (next :: rest) = true := by
        simp only [isSorted, List.all_cons, List.tail_cons, List.zip_cons_cons, Bool.and_eq_true, decide_eq_true_eq]
        tauto
      rw [hFirst, ih, sorted_cons (r := r)]
      refine and_congr_right fun _ => and_congr_left fun hRest => ?_
      obtain ⟨hEnds, hBefore, -⟩ := sorted_cons.mp hRest
      rw [List.forall_mem_cons]
      exact ⟨fun hNext => ⟨hNext, fun later hLater => hNext.trans_le (hEnds.trans (hBefore later hLater).le)⟩, And.left⟩

end

/-! ## Bisection -/

section

variable {ranges : Array CharRange} {m : CharRange} {c : Char} {base stop middle size : Nat}

/-- The first `base` ranges end before `c`, and those from `stop` on do not. -/
structure Cut (ranges : Array CharRange) (c : Char) (base stop : Nat) : Prop where
  below : ∀ i r, ranges[i]? = some r → i < base → r.2 < c
  above : ∀ i r, ranges[i]? = some r → stop ≤ i → c ≤ r.2

theorem Sorted.lt (h : Sorted ranges.toList) {i j : Nat} {a b : CharRange} (ha : ranges[i]? = some a) (hb : ranges[j]? = some b)
    (hLess : i < j) : a.2 < b.1 := by
  obtain ⟨hi, rfl⟩ := Array.getElem?_eq_some_iff.mp ha
  obtain ⟨hj, rfl⟩ := Array.getElem?_eq_some_iff.mp hb
  exact List.pairwise_iff_getElem.mp h.order i j hi hj hLess

theorem Sorted.le (h : Sorted ranges.toList) {i : Nat} {a : CharRange} (ha : ranges[i]? = some a) : a.1 ≤ a.2 :=
  h.ends a (Array.mem_toList_iff.mpr (Array.mem_of_getElem? ha))

theorem Cut.mono (hCut : Cut ranges c base stop) {base' stop' : Nat} (hBase : base' ≤ base) (hStop : stop ≤ stop') :
    Cut ranges c base' stop' where
  below i r hr hi := hCut.below i r hr (hi.trans_le hBase)
  above i r hr hi := hCut.above i r hr (hStop.trans hi)

/-- A range that ends before `c` has all those before it on the same side. -/
theorem Cut.raise (hCut : Cut ranges c base stop) (h : Sorted ranges.toList) (hMiddle : ranges[middle]? = some m)
    (hBelow : m.2 < c) : Cut ranges c (middle + 1) stop where
  below i r hr hi := by
    rcases Nat.lt_succ_iff_lt_or_eq.mp hi with hLess | rfl
    · exact (h.lt hr hMiddle hLess).trans_le ((h.le hMiddle).trans hBelow.le)
    · rw [hMiddle] at hr
      cases hr
      exact hBelow
  above := hCut.above

/-- A range that does not end before `c` has all those after it on the same side. -/
theorem Cut.lower (hCut : Cut ranges c base stop) (h : Sorted ranges.toList) (hMiddle : ranges[middle]? = some m)
    (hAbove : c ≤ m.2) : Cut ranges c base middle where
  below := hCut.below
  above i r hr hi := by
    rcases Nat.lt_or_eq_of_le hi with hLess | rfl
    · exact hAbove.trans ((h.lt hMiddle hr hLess).le.trans (h.le hr))
    · rw [hMiddle] at hr
      cases hr
      exact hAbove

theorem cut_bisect (hCut : Cut ranges c base (base + size)) (h : Sorted ranges.toList) (hSize : base + size ≤ ranges.size) :
    Cut ranges c (bisect ranges c base size) (bisect ranges c base size) := by
  have hTest (i : Nat) (hi : i < ranges.size) : (ranges[i]?.any fun r => r.2 < c) = true ↔ ranges[i].2 < c := by
    rw [Array.getElem?_eq_getElem hi, Option.any_some, decide_eq_true_eq]
  fun_induction bisect ranges c base size with
  | case1 base size below hMany middle ih =>
    have hMiddle : middle < ranges.size := by omega
    simp only [dite_eq_ite] at ih
    split at ih
    next hBelow =>
      have hRaised := hCut.raise h (Array.getElem?_eq_getElem hMiddle) ((hTest _ hMiddle).mp hBelow)
      rw [if_pos hBelow]
      exact ih (hRaised.mono (Nat.le_succ _) (by omega)) (by omega)
    next hAbove =>
      have hLowered := hCut.lower h (Array.getElem?_eq_getElem hMiddle) (not_lt.mp (mt (hTest _ hMiddle).mpr hAbove))
      rw [if_neg hAbove]
      exact ih (hLowered.mono le_rfl (by omega)) (by omega)
  | case2 base below => exact hCut
  | case3 base size below hFew hSome hBelow =>
    have hBase : base < ranges.size := by omega
    have hRaised := hCut.raise h (Array.getElem?_eq_getElem hBase) ((hTest _ hBase).mp hBelow)
    exact hRaised.mono le_rfl (by omega)
  | case4 base size below hFew hSome hAbove =>
    have hBase : base < ranges.size := by omega
    exact hCut.lower h (Array.getElem?_eq_getElem hBase) (not_lt.mp (mt (hTest _ hBase).mpr hAbove))

/-- In ranges in order, bisection answers whether one of them has the character. -/
theorem inRanges_iff (h : Sorted ranges.toList) : inRanges ranges c = true ↔ Holds ranges.toList c := by
  have hCut : Cut ranges c (bisect ranges c 0 ranges.size) (bisect ranges c 0 ranges.size) := by
    refine cut_bisect ⟨fun i r _ hi => absurd hi (Nat.not_lt_zero i), fun i r hr hi => ?_⟩ h (Nat.zero_add _).le
    have := (Array.getElem?_eq_some_iff.mp hr).1
    omega
  rw [inRanges]
  generalize bisect ranges c 0 ranges.size = k at *
  constructor
  · intro hFound
    split at hFound
    next r hr =>
      exact ⟨r, Array.mem_toList_iff.mpr (Array.mem_of_getElem? hr), of_decide_eq_true hFound, hCut.above k r hr le_rfl⟩
    next => cases hFound
  · rintro ⟨r, hMem, hFirst, hLast⟩
    obtain ⟨i, hr⟩ := Array.mem_iff_getElem?.mp (Array.mem_toList_iff.mp hMem)
    have hLe : k ≤ i := not_lt.mp fun hLess => hLast.not_gt (hCut.below i r hr hLess)
    -- A range before this one would have ended before `c`, so the one that was found is this one.
    have hGe : i ≤ k := by
      by_contra hLess
      have hk : k < ranges.size := (not_le.mp hLess).trans (Array.getElem?_eq_some_iff.mp hr).1
      have hFound := Array.getElem?_eq_getElem hk
      have hEnds := h.lt hFound hr (not_le.mp hLess)
      exact (hCut.above k _ hFound le_rfl).not_gt (hEnds.trans_le hFirst)
    obtain rfl := Nat.le_antisymm hLe hGe
    rw [hr]
    exact decide_eq_true hFirst

/-- A class has the characters of its ranges, or the others if it is negated. -/
theorem contains_iff {cls : CharClass} (h : Sorted cls.ranges.toList) :
    cls.contains c = true ↔ Xor (Holds cls.ranges.toList c) (cls.negated = true) := by
  rw [contains, bne_iff_ne, ne_eq, Bool.eq_iff_iff, inRanges_iff h]
  exact (xor_iff_not_iff _ _).symm

end

/-! ## Normalizing -/

section

variable {ranges : List CharRange} {r last : CharRange} {c : Char}

theorem ordered_eq (r : CharRange) : ordered r = (min r.1 r.2, max r.1 r.2) := by
  rw [ordered]
  split
  next h => rw [min_eq_left h, max_eq_right h]
  next h => rw [min_eq_right (not_le.mp h).le, max_eq_left (not_le.mp h).le]

theorem rangeLe_iff {a b : CharRange} : rangeLe a b = true ↔ toLex a ≤ toLex b := by
  simp [rangeLe, Prod.Lex.toLex_le_toLex]

/-- Two ranges that overlap or are adjacent have the characters of the one that reaches over both. -/
theorem joined_iff (hOrder : last.1 ≤ r.1) (hMeet : r.1.toNat ≤ last.2.toNat + 1) :
    last.1 ≤ c ∧ c ≤ max last.2 r.2 ↔ (last.1 ≤ c ∧ c ≤ last.2) ∨ (r.1 ≤ c ∧ c ≤ r.2) := by
  rw [le_max_iff]
  constructor
  · rintro ⟨hFirst, hLast | hNext⟩
    · exact .inl ⟨hFirst, hLast⟩
    · rcases le_or_gt c last.2 with hLast | hBeyond
      · exact .inl ⟨hFirst, hLast⟩
      · exact .inr ⟨hMeet.trans (Nat.succ_le_of_lt hBeyond), hNext⟩
  · rintro (⟨hFirst, hLast⟩ | ⟨hFirst, hLast⟩)
    · exact ⟨hFirst, .inl hLast⟩
    · exact ⟨hOrder.trans hFirst, .inr hLast⟩

theorem mergeFrom_apart (hEnds : ∀ r ∈ last :: ranges, r.1 ≤ r.2) (hOrder : (last :: ranges).Pairwise fun a b => a.1 ≤ b.1) :
    Apart (mergeFrom last ranges) ∧ (∀ r ∈ mergeFrom last ranges, last.1 ≤ r.1) ∧
      ∀ c, Holds (mergeFrom last ranges) c ↔ Holds (last :: ranges) c := by
  induction ranges generalizing last with
  | nil => exact ⟨⟨hEnds, List.pairwise_singleton _ _⟩, by simp [mergeFrom], fun _ => Iff.rfl⟩
  | cons r rest ih =>
    obtain ⟨hLast, hNext⟩ := List.forall_mem_cons.mp hEnds
    obtain ⟨hFirst, hSorted⟩ := List.pairwise_cons.mp hOrder
    obtain ⟨hFirst, hLater⟩ := List.forall_mem_cons.mp hFirst
    rw [mergeFrom]
    split
    next hMeet =>
      rw [← max_def]
      obtain ⟨hApart, hFrom, hHolds⟩ := @ih (last.1, max last.2 r.2)
        (List.forall_mem_cons.mpr ⟨hLast.trans (le_max_left _ _), (List.forall_mem_cons.mp hNext).2⟩)
        (List.pairwise_cons.mpr ⟨hLater, (List.pairwise_cons.mp hSorted).2⟩)
      refine ⟨hApart, hFrom, fun c => (hHolds c).trans ?_⟩
      simp only [Holds, List.exists_mem_cons_iff, joined_iff hFirst hMeet, or_assoc]
    next hGap =>
      obtain ⟨hApart, hFrom, hHolds⟩ := ih hNext hSorted
      -- All that follow begin no earlier than `r`, so the gap before `r` is one before each of them.
      have hGaps : ∀ later ∈ mergeFrom r rest, last.2.toNat + 1 < later.1.toNat := fun later hMem =>
        (not_le.mp hGap).trans_le (hFrom later hMem)
      refine ⟨⟨List.forall_mem_cons.mpr ⟨hLast, hApart.ends⟩, List.pairwise_cons.mpr ⟨hGaps, hApart.gaps⟩⟩, ?_, fun c => ?_⟩
      · exact List.forall_mem_cons.mpr ⟨le_rfl, fun later hMem => hFirst.trans (hFrom later hMem)⟩
      · rw [Holds, Holds, List.exists_mem_cons_iff, List.exists_mem_cons_iff]
        exact or_congr_right (hHolds c)

theorem merge_apart (hEnds : ∀ r ∈ ranges, r.1 ≤ r.2) (hOrder : ranges.Pairwise fun a b => a.1 ≤ b.1) :
    Apart (merge ranges) ∧ ∀ c, Holds (merge ranges) c ↔ Holds ranges c := by
  cases ranges with
  | nil => exact ⟨⟨hEnds, .nil⟩, fun _ => Iff.rfl⟩
  | cons first rest =>
    obtain ⟨hApart, -, hHolds⟩ := mergeFrom_apart hEnds hOrder
    exact ⟨hApart, hHolds⟩

theorem pairwise_mergeSort_rangeLe (ranges : List CharRange) :
    (ranges.mergeSort rangeLe).Pairwise fun a b => a.1 ≤ b.1 := by
  have hLex : (ranges.mergeSort rangeLe).Pairwise fun a b => rangeLe a b := by
    refine List.pairwise_mergeSort (fun a b c => ?_) (fun a b => ?_) _
    · simp only [rangeLe_iff]
      exact le_trans
    · simp only [Bool.or_eq_true, rangeLe_iff]
      exact le_total _ _
  refine hLex.imp fun hLe => ?_
  rcases Prod.Lex.toLex_le_toLex.mp (rangeLe_iff.mp hLe) with hLess | ⟨hEq, -⟩
  · exact hLess.le
  · exact hEq.le

/-- Normalized ranges are apart and have the characters between the ends of those that were written. -/
theorem normalize_apart (written : List CharRange) : Apart (normalize written) ∧
    ∀ c, Holds (normalize written) c ↔ ∃ r ∈ written, min r.1 r.2 ≤ c ∧ c ≤ max r.1 r.2 := by
  have hMem (r : CharRange) : r ∈ (written.map ordered).mergeSort rangeLe ↔ ∃ w ∈ written, ordered w = r := by
    rw [List.mem_mergeSort, List.mem_map]
  have hEnds : ∀ r ∈ (written.map ordered).mergeSort rangeLe, r.1 ≤ r.2 := by
    intro r hr
    obtain ⟨w, -, rfl⟩ := (hMem r).mp hr
    rw [ordered_eq]
    exact min_le_max
  obtain ⟨hApart, hHolds⟩ := merge_apart hEnds (pairwise_mergeSort_rangeLe _)
  refine ⟨hApart, fun c => (hHolds c).trans ?_⟩
  simp only [Holds, hMem, exists_exists_and_eq_and, ordered_eq]

theorem mergeFrom_eq_self (h : Apart (last :: ranges)) : mergeFrom last ranges = last :: ranges := by
  induction ranges generalizing last with
  | nil => rfl
  | cons r rest ih =>
    obtain ⟨hGap, hGaps⟩ := List.pairwise_cons.mp h.gaps
    have hNot : ¬r.1.toNat ≤ last.2.toNat + 1 := (hGap r List.mem_cons_self).not_ge
    rw [mergeFrom, if_neg hNot, ih ⟨(List.forall_mem_cons.mp h.ends).2, hGaps⟩]

/-- Ranges that are apart are as normalizing leaves them. -/
theorem Apart.normalize_eq (h : Apart ranges) : normalize ranges = ranges := by
  have hEnds : ranges.map ordered = ranges := (List.map_congr_left fun r hr => if_pos (h.ends r hr)).trans (List.map_id _)
  have hOrder : ranges.Pairwise fun a b => rangeLe a b := by
    refine h.sorted.order.imp_of_mem fun {a b} ha _ hLess => ?_
    exact rangeLe_iff.mpr (Prod.Lex.toLex_le_toLex.mpr (.inl ((h.ends a ha).trans_lt hLess)))
  rw [normalize, hEnds, List.mergeSort_of_pairwise hOrder]
  cases ranges with
  | nil => rfl
  | cons first rest => exact mergeFrom_eq_self h

/-- Between ranges that are apart lies a character of neither, but for ranges on either side of the surrogates. -/
theorem Apart.between (h : Apart ranges) :
    ranges.Pairwise fun a b => (∃ c, a.2 < c ∧ c < b.1) ∨ a.2 = '\ud7ff' ∧ b.1 = '\ue000' := by
  refine h.gaps.imp fun {a b} hGap => ?_
  have ha : a.2.toNat.isValidChar := a.2.valid
  have hb : b.1.toNat.isValidChar := b.1.valid
  simp only [Nat.isValidChar] at ha hb
  by_cases hNext : (a.2.toNat + 1).isValidChar
  · have hCode : (Char.ofNat (a.2.toNat + 1)).toNat = a.2.toNat + 1 := by rw [Char.toNat_ofNat, if_pos hNext]
    refine .inl ⟨.ofNat (a.2.toNat + 1), ?_, ?_⟩
    · exact (Nat.lt_succ_self _).trans_eq hCode.symm
    · exact hCode.trans_lt hGap
  -- The code point after `a` is the first surrogate, and the first character after the surrogates is the only candidate.
  · simp only [Nat.isValidChar] at hNext
    have hLast : a.2 = '\ud7ff' := Char.toNat_inj.mp (show a.2.toNat = 55295 by omega)
    have hFirst : '\ue000' ≤ b.1 := show 57344 ≤ b.1.toNat by omega
    rcases hFirst.eq_or_lt with hEq | hLess
    · exact .inr ⟨hLast, hEq.symm⟩
    · exact .inl ⟨'\ue000', hLast ▸ by decide, hLess⟩

end

/-! ## What classes mean -/

/-- A class means what was written: the characters between the ends of any of the ranges, whichever end comes first, or the others
if it is negated. Its own ranges are in order with a code point between one and the next, so a valid table stays valid when one of
its nodes consumes the class, and normalizing them again changes nothing. -/
theorem normalize_exact (written : List CharRange) :
    (∀ (negated : Bool) (c : Char), contains ⟨(normalize written).toArray, negated⟩ c = true ↔
      Xor (∃ r ∈ written, min r.1 r.2 ≤ c ∧ c ≤ max r.1 r.2) (negated = true)) ∧
    Apart (normalize written) ∧ isSorted (normalize written) = true ∧
    (∀ (t : Table) (i : Nat) (negated : Bool) (next : UInt32), t.validate = .ok () → next.toNat < t.lexNodes.size →
      (t.withNode i (.chars ⟨(normalize written).toArray, negated⟩ next)).validate = .ok ()) ∧
    normalize (normalize written) = normalize written := by
  obtain ⟨hApart, hHolds⟩ := normalize_apart written
  have hSorted := isSorted_iff.mpr hApart.sorted
  refine ⟨fun negated c => ?_, hApart, hSorted, fun t i negated next hValid hNext => ?_, hApart.normalize_eq⟩
  · rw [← hHolds]
    exact contains_iff hApart.sorted
  · refine Table.validate_of_valid ((Table.valid_of_validate hValid).withNode ?_ i)
    rw [Table.lexNodeFits, Bool.and_eq_true, decide_eq_true_eq]
    exact ⟨hSorted, hNext⟩

theorem greeting_withNode :
    Table.greeting.validate = .ok () ∧ (0 : UInt32).toNat < Table.greeting.lexNodes.size ∧
      (Table.greeting.withNode 1 (.chars ⟨(normalize [('z', 'p'), ('i', 'k'), ('a', 'j'), ('l', 'l')]).toArray, true⟩ 0)).validate =
        .ok () := by
  have hValid : Table.greeting.validate = .ok () := by cbv
  have hNext : (0 : UInt32).toNat < Table.greeting.lexNodes.size := by decide
  obtain ⟨-, -, -, hAccepted, -⟩ := normalize_exact [('z', 'p'), ('i', 'k'), ('a', 'j'), ('l', 'l')]
  exact ⟨hValid, hNext, hAccepted .greeting 1 true 0 hValid hNext⟩

-- No character lies between the two sides of the surrogates, but code points do.
example : normalize [('\ue000', '\ue000'), ('z', 'p'), ('i', 'k'), ('\ud7ff', '\ud7ff'), ('a', 'j'), ('l', 'l')] =
    [('a', 'l'), ('p', 'z'), ('\ud7ff', '\ud7ff'), ('\ue000', '\ue000')] := by cbv

end CharClass

namespace Table.Valid

variable {t : Table} {n next : UInt32} {cls : CharClass} {c : Char}

theorem sorted (h : t.Valid) (hNode : t.lexNodes[n.toNat]? = some (.chars cls next)) : CharClass.Sorted cls.ranges.toList := by
  have hFits := h.lexNodeFits_of_mem (Array.mem_of_getElem? hNode)
  simp only [lexNodeFits, Bool.and_eq_true] at hFits
  exact CharClass.isSorted_iff.mp hFits.1

/-- The nodes of a valid table consume the characters of their ranges, however the table came about. -/
theorem after?_iff (h : t.Valid) (hNode : t.lexNodes[n.toNat]? = some (.chars cls next)) :
    t.lexNodes.after? c n = some next ↔ Xor (CharClass.Holds cls.ranges.toList c) (cls.negated = true) := by
  rw [← CharClass.contains_iff (h.sorted hNode), LexArena.after?, hNode]
  simp

end Table.Valid
end Reparse
