import Mathlib
import Reparse.Text.Lines
/-!
# Offsets and their points

The starts of lines rise from 0 to at most the end of the text, so an offset stands in one row. Its point leads back to it,
and points rise with their offsets. A point leads to an offset that has it, but for the point just past a newline: that one
leads to the start of the next line, where the row is another one.
-/
namespace Reparse

namespace LineIndex

variable {index : LineIndex} {bytes : List UInt8} {offset offset' row row' start start' n : Nat}

/-! ## Starts of lines -/

theorem startsAfterNewlines_bounds (h : n ∈ startsAfterNewlines offset bytes) :
    offset < n ∧ n ≤ offset + bytes.length := by
  induction bytes generalizing offset with
  | nil => simp [startsAfterNewlines] at h
  | cons b rest ih =>
    have hLater (h : n ∈ startsAfterNewlines (offset + 1) rest) : offset < n ∧ n ≤ offset + (b :: rest).length := by
      have := ih h
      rw [List.length_cons]
      omega
    rw [startsAfterNewlines] at h
    split at h
    · rcases List.mem_cons.mp h with rfl | h
      · rw [List.length_cons]
        omega
      · exact hLater h
    · exact hLater h

theorem startsAfterNewlines_pairwise (offset : Nat) (bytes : List UInt8) :
    (startsAfterNewlines offset bytes).Pairwise (· < ·) := by
  induction bytes generalizing offset with
  | nil => exact .nil
  | cons b rest ih =>
    rw [startsAfterNewlines]
    split
    · exact .cons (fun n hn => (startsAfterNewlines_bounds hn).1) (ih _)
    · exact ih _

/-- The first line starts at 0, and every other one after the one before it, within the text. -/
structure Rising (index : LineIndex) : Prop where
  first : index.starts.head? = some 0
  sorted : index.starts.Pairwise (· < ·)
  within : ∀ n ∈ index.starts, n ≤ index.size

theorem rising_ofBytes (bytes : List UInt8) : (ofBytes bytes).Rising where
  first := rfl
  sorted := .cons (fun _ hn => (startsAfterNewlines_bounds hn).1) (startsAfterNewlines_pairwise 0 bytes)
  within n hn := by
    rcases List.mem_cons.mp hn with rfl | hn
    · exact Nat.zero_le _
    · have := startsAfterNewlines_bounds hn
      simpa [ofBytes] using this.2

/-! ## Rows -/

/-- The line of `row` starts at `start`, at or before the offset, and the next one after it. -/
structure Covers (index : LineIndex) (row start offset : Nat) : Prop where
  begins : index.starts[row]? = some start
  le : start ≤ offset
  lt : ∀ next, index.starts[row + 1]? = some next → offset < next

theorem lineOf_covers (row : Nat) (nexts : List Nat) (h : start ≤ offset) :
    ∃ i last, lineOf offset row start nexts = (row + i, last) ∧ (start :: nexts)[i]? = some last ∧ last ≤ offset ∧
      ∀ next, nexts[i]? = some next → offset < next := by
  induction nexts generalizing row start with
  | nil => exact ⟨0, start, rfl, rfl, h, by simp⟩
  | cons next rest ih =>
    rw [lineOf]
    split
    next hNext =>
      obtain ⟨i, last, hLine, hLast, hLe, hLt⟩ := ih (row + 1) hNext
      exact ⟨i + 1, last, by rw [hLine, Nat.add_assoc, Nat.add_comm 1], hLast, hLe, hLt⟩
    next hNext =>
      refine ⟨0, start, rfl, rfl, h, ?_⟩
      rintro _ ⟨⟩
      exact Nat.lt_of_not_le hNext

/-- Rows rise with their offsets. -/
theorem Rising.row_le (h : index.Rising) (hCovers : index.Covers row start offset)
    (hCovers' : index.Covers row' start' offset') (hOffset : offset ≤ offset') : row ≤ row' := by
  by_contra hNot
  obtain ⟨hRow, hStart⟩ := List.getElem?_eq_some_iff.mp hCovers.begins
  -- The line after the earlier row starts at or before the later row, so it holds neither offset.
  have hNext : row' + 1 < index.starts.length := by omega
  have hFirst := hCovers'.lt _ (List.getElem?_eq_getElem hNext)
  have hLast : index.starts[row' + 1] ≤ index.starts[row] := by
    rcases Nat.lt_or_eq_of_le (Nat.succ_le_of_lt (Nat.lt_of_not_le hNot)) with hLt | hEq
    · exact (List.pairwise_iff_getElem.mp h.sorted _ _ hNext hRow hLt).le
    · exact le_of_eq (by congr 1)
  have := hCovers.le
  omega

theorem Rising.covers_unique (h : index.Rising) (hCovers : index.Covers row start offset)
    (hCovers' : index.Covers row' start' offset) : row = row' ∧ start = start' := by
  obtain rfl := Nat.le_antisymm (h.row_le hCovers hCovers' le_rfl) (h.row_le hCovers' hCovers le_rfl)
  exact ⟨rfl, Option.some.inj (hCovers.begins.symm.trans hCovers'.begins)⟩

theorem Rising.exists_covers (h : index.Rising) (hOffset : offset ≤ index.size) :
    ∃ row start, index.Covers row start offset ∧ index.point offset = ⟨row, offset - start⟩ := by
  obtain ⟨rest, hStarts⟩ := List.head?_eq_some_iff.mp h.first
  obtain ⟨row, start, hLine, hStart, hLe, hLt⟩ := lineOf_covers 0 rest (Nat.zero_le offset)
  refine ⟨row, start, ⟨by rw [hStarts, hStart], hLe, fun next hNext => hLt next ?_⟩, ?_⟩
  · rwa [hStarts, List.getElem?_cons_succ] at hNext
  · rw [point, Nat.min_eq_left hOffset, hStarts, List.tail_cons, hLine, Nat.zero_add]

theorem Covers.point_eq (hCovers : index.Covers row start offset) (h : index.Rising) (hOffset : offset ≤ index.size) :
    index.point offset = ⟨row, offset - start⟩ := by
  obtain ⟨row', start', hCovers', hPoint⟩ := h.exists_covers hOffset
  obtain ⟨rfl, rfl⟩ := h.covers_unique hCovers hCovers'
  exact hPoint

/-! ## From offsets to points and back -/

theorem Rising.offset_point (h : index.Rising) (hSize : index.size ≤ maxOffset) (hOffset : offset ≤ index.size) :
    index.offset (index.point offset) = .ok (some offset) := by
  obtain ⟨row, start, hCovers, hPoint⟩ := h.exists_covers hOffset
  have hSum : start + (offset - start) = offset := Nat.add_sub_cancel' hCovers.le
  have hStop : offset ≤ (index.starts[row + 1]?).getD index.size := by
    cases hNext : index.starts[row + 1]? with
    | none => exact hOffset
    | some next => exact (hCovers.lt next hNext).le
  rw [hPoint, LineIndex.offset, hCovers.begins]
  dsimp only
  rw [hSum, if_neg (by omega), if_pos hStop]

/-- Points are ordered by row, then by column. -/
def rank (p : Point) : Nat ×ₗ Nat := toLex (p.row, p.column)

theorem Rising.rank_lt (h : index.Rising) (hLt : offset < offset') (hOffset : offset' ≤ index.size) :
    rank (index.point offset) < rank (index.point offset') := by
  obtain ⟨row, start, hCovers, hPoint⟩ := h.exists_covers (hLt.le.trans hOffset)
  obtain ⟨row', start', hCovers', hPoint'⟩ := h.exists_covers hOffset
  rw [hPoint, hPoint', rank, rank, Prod.Lex.toLex_lt_toLex]
  rcases Nat.lt_or_eq_of_le (h.row_le hCovers hCovers' hLt.le) with hRow | rfl
  · exact .inl hRow
  · obtain rfl := Option.some.inj (hCovers.begins.symm.trans hCovers'.begins)
    have := hCovers.le
    exact .inr ⟨rfl, by dsimp only; omega⟩

/-- The offset of a point is in the text. It has this point, unless the next line starts there. -/
theorem Rising.point_of_offset (h : index.Rising) {p : Point} (hOffset : index.offset p = .ok (some offset)) :
    offset ≤ index.size ∧
      index.point offset = if index.starts[p.row + 1]? = some offset then ⟨p.row + 1, 0⟩ else p := by
  rw [LineIndex.offset] at hOffset
  cases hStart : index.starts[p.row]? with
  | none => simp [hStart] at hOffset
  | some start =>
    rw [hStart] at hOffset
    dsimp only at hOffset
    split at hOffset
    · cases hOffset
    split at hOffset
    next hStop =>
      obtain rfl := Option.some.inj (Except.ok.inj hOffset)
      have hSize : start + p.column ≤ index.size := by
        cases hNext : index.starts[p.row + 1]? with
        | none => simpa [hNext] using hStop
        | some next =>
          rw [hNext, Option.getD_some] at hStop
          exact hStop.trans (h.within next (List.mem_of_getElem? hNext))
      refine ⟨hSize, ?_⟩
      split
      next hNext =>
        -- Past the newline the offset is the first one of the next row.
        have hCovers : index.Covers (p.row + 1) (start + p.column) (start + p.column) := by
          refine ⟨hNext, le_rfl, fun later hLater => ?_⟩
          obtain ⟨hBound, hEq⟩ := List.getElem?_eq_some_iff.mp hNext
          obtain ⟨hBound', rfl⟩ := List.getElem?_eq_some_iff.mp hLater
          have := List.pairwise_iff_getElem.mp h.sorted _ _ hBound hBound' (Nat.lt_succ_self _)
          omega
        rw [hCovers.point_eq h hSize, Nat.sub_self]
      next hNext =>
        have hCovers : index.Covers p.row start (start + p.column) := by
          refine ⟨hStart, Nat.le_add_right _ _, fun next hLater => ?_⟩
          rw [hLater, Option.getD_some] at hStop
          exact lt_of_le_of_ne hStop fun hEq => hNext (by rw [hLater, hEq])
        rw [hCovers.point_eq h hSize, Nat.add_sub_cancel_left]
    next => cases hOffset

/-- The point just past the newline of a line leads to the start of the next one, which has another point. -/
theorem Rising.offset_past_newline (h : index.Rising) (hSize : index.size ≤ maxOffset) {next : Nat}
    (hStart : index.starts[row]? = some start) (hNext : index.starts[row + 1]? = some next) :
    index.offset ⟨row, next - start⟩ = .ok (some next) ∧ index.point next = ⟨row + 1, 0⟩ := by
  obtain ⟨hRow, rfl⟩ := List.getElem?_eq_some_iff.mp hStart
  obtain ⟨hRow', rfl⟩ := List.getElem?_eq_some_iff.mp hNext
  have hLt := List.pairwise_iff_getElem.mp h.sorted _ _ hRow hRow' (Nat.lt_succ_self row)
  have hWithin := h.within _ (List.getElem_mem hRow')
  have hOffset : index.offset ⟨row, index.starts[row + 1] - index.starts[row]⟩ = .ok (some index.starts[row + 1]) := by
    rw [LineIndex.offset, hStart]
    dsimp only
    rw [hNext, Option.getD_some, Nat.add_sub_cancel' hLt.le, if_neg (by omega), if_pos le_rfl]
  refine ⟨hOffset, ?_⟩
  have hPoint := (h.point_of_offset hOffset).2
  rwa [if_pos hNext] at hPoint

/-- Every offset of a text is got back from its point, points rise strictly with their offsets, and a point leads to an
offset of the text that has it, unless it is the point just past a newline. -/
theorem ofBytes_converts (h : bytes.length ≤ maxOffset) :
    (∀ offset ≤ bytes.length, (ofBytes bytes).offset ((ofBytes bytes).point offset) = .ok (some offset)) ∧
    StrictMonoOn (fun offset => rank ((ofBytes bytes).point offset)) (Set.Iic bytes.length) ∧
    ∀ p offset, (ofBytes bytes).offset p = .ok (some offset) → offset ≤ bytes.length ∧
      (ofBytes bytes).point offset = if (ofBytes bytes).starts[p.row + 1]? = some offset then ⟨p.row + 1, 0⟩ else p := by
  have hRising := rising_ofBytes bytes
  refine ⟨fun offset hOffset => hRising.offset_point h hOffset, ?_, fun p offset => hRising.point_of_offset⟩
  intro offset _ offset' hOffset' hLt
  exact hRising.rank_lt hLt hOffset'

example : (ofText "a\nb").offset ⟨0, 2⟩ = .ok (some 2) ∧ (ofText "a\nb").point 2 = ⟨1, 0⟩ := by decide +kernel

end LineIndex
end Reparse
