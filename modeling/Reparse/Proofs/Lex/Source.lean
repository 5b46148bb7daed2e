import Reparse.Lex.Source
import Mathlib
/-!
# Sources that serve a text

`src.Serves Ok bytes` says that `src` answers with pieces of `bytes`, of any length but empty only at the
end, as long as its state is `Ok`. The characters read from it are then those of `decodeAt`, however
the text is cut into chunks.
-/
namespace Reparse

namespace Chunk

variable {c : Chunk} {bytes : List UInt8}

/-- The chunk is a beginning of `bytes`. -/
structure Begins (c : Chunk) (bytes : List UInt8) : Prop where
  size_le : c.size ≤ bytes.length
  get?_eq : ∀ i, i < c.size → c.get? i = bytes[i]?

theorem get?_eq_none {i : Nat} (h : c.size ≤ i) : c.get? i = none := by
  rw [get?]
  rw [size] at h
  split
  next hBytes => rw [if_neg (by omega)]
  next => rfl

theorem filterMap_range_getElem? {α : Type} (xs : List α) (n : Nat) :
    (List.range n).filterMap (xs[·]?) = xs.take n := by
  induction n with
  | zero => simp
  | succ n ih =>
    rw [List.range_succ, List.filterMap_append, ih, List.take_add_one]
    simp only [List.filterMap_cons, List.filterMap_nil]
    cases xs[n]? <;> rfl

theorem Begins.take_eq (h : c.Begins bytes) {n : Nat} (hn : n ≤ c.size) : c.take n = bytes.take n := by
  rw [← filterMap_range_getElem?, take]
  refine List.filterMap_congr fun i hi => h.get?_eq i ?_
  have := List.mem_range.mp hi
  omega

theorem Begins.clip (h : ∀ i, i < c.size → i < bytes.length → c.get? i = bytes[i]?) :
    (c.clip bytes.length).Begins bytes := by
  have hSize : (c.clip bytes.length).size = min c.size bytes.length := by
    simp only [size, Chunk.clip]
    omega
  refine ⟨by omega, fun i hi => ?_⟩
  rw [← h i (by omega) (by omega)]
  have hLess : c.start + i < min c.stop (c.start + bytes.length) ↔ c.start + i < c.stop := by omega
  simp only [get?, Chunk.clip, hLess]

theorem begins_ofBytes (array : ByteArray) (offset : Nat) :
    ((ofBytes array).drop offset).Begins (array.data.toList.drop offset) := by
  have hLength : array.data.toList.length = array.size := by simp
  refine ⟨by simp [size, ofBytes, drop], fun i hi => ?_⟩
  simp only [size, ofBytes, drop] at hi
  have hi' : offset + i < array.size := by omega
  simp only [get?, ofBytes, drop, Nat.zero_add, hi', dif_pos, if_true, List.getElem?_drop]
  rw [List.getElem?_eq_getElem (by omega), Option.some.injEq]
  rfl

end Chunk

namespace Source

variable {σ : Type} {src : Source σ} {Ok : σ → Prop} {bytes : List UInt8}

/-- The source answers with pieces of `bytes` and stays in states that are `Ok`. -/
structure Serves (src : Source σ) (Ok : σ → Prop) (bytes : List UInt8) : Prop where
  size_eq : src.size = bytes.length
  ok : ∀ offset s, Ok s → Ok (src.chunkAt offset s).2
  size_pos : ∀ offset s, Ok s → offset < bytes.length → 0 < (src.chunkAt offset s).1.size
  get?_eq : ∀ offset s i, Ok s → i < (src.chunkAt offset s).1.size → offset + i < bytes.length →
    (src.chunkAt offset s).1.get? i = bytes[offset + i]?

theorem serves_ofBytes (array : ByteArray) :
    (Source.ofBytes array : Source σ).Serves (fun _ => True) array.data.toList where
  size_eq := by simp [ofBytes]
  ok _ _ _ := trivial
  size_pos offset _ _ h := by
    have hLength : array.data.toList.length = array.size := by simp
    simp only [Chunk.size, Chunk.ofBytes, Chunk.drop, ofBytes]
    omega
  get?_eq offset _ i _ hi _ := by
    rw [← List.getElem?_drop]
    exact (Chunk.begins_ofBytes array offset).get?_eq i hi

/-- The kept chunk is a piece of the text. -/
def Cache.Fits (bytes : List UInt8) (cache : Cache) : Prop :=
  ∀ i, i < cache.chunk.size → cache.offset + i < bytes.length → cache.chunk.get? i = bytes[cache.offset + i]?

/-- A callback may cut the text as it likes. -/
theorem serves_chunked (bytes : List UInt8) {call : Nat → σ → ByteArray × σ} {Ok : σ → Prop}
    (hOk : ∀ offset s, Ok s → Ok (call offset s).2)
    (hPos : ∀ offset s, Ok s → offset < bytes.length → 0 < (call offset s).1.size)
    (hCall : ∀ offset s i, Ok s → i < (call offset s).1.size → offset + i < bytes.length →
      (call offset s).1.data.toList[i]? = bytes[offset + i]?) :
    (Source.chunked bytes.length call).Serves (fun state => state.1.Fits bytes ∧ Ok state.2) bytes := by
  have hNew (offset : Nat) (s : σ) (hs : Ok s) : Cache.Fits bytes ⟨Chunk.ofBytes (call offset s).1, offset⟩ := by
    intro i hi hBound
    have hBegins := Chunk.begins_ofBytes (call offset s).1 0
    have hSize : i < (call offset s).1.size := by simpa [Chunk.size, Chunk.ofBytes] using hi
    rw [← hCall offset s i hs hSize hBound]
    simpa [Chunk.drop, Chunk.ofBytes] using hBegins.get?_eq i hi
  refine ⟨rfl, ?_, ?_, ?_⟩
  · rintro offset ⟨cache, s⟩ ⟨hFits, hs⟩
    simp only [chunked]
    split
    · exact ⟨hFits, hs⟩
    · exact ⟨hNew offset s hs, hOk offset s hs⟩
  · rintro offset ⟨cache, s⟩ ⟨hFits, hs⟩ hBound
    simp only [chunked]
    split
    · simp only [Chunk.size, Chunk.drop] at *
      omega
    · have := hPos offset s hs hBound
      simpa [Chunk.size, Chunk.ofBytes] using this
  · rintro offset ⟨cache, s⟩ i ⟨hFits, hs⟩ hi hBound
    simp only [chunked] at hi ⊢
    split at hi
    next hKept =>
      rw [if_pos hKept]
      have hSize : offset - cache.offset + i < cache.chunk.size := by
        simp only [Chunk.size, Chunk.drop] at hi ⊢
        omega
      have hAt := hFits (offset - cache.offset + i) hSize (by change cache.offset + _ < _; omega)
      rw [show cache.offset + (offset - cache.offset + i) = offset + i by omega] at hAt
      rw [← hAt]
      simp [Chunk.get?, Chunk.drop, Nat.add_assoc]
    next hOther =>
      rw [if_neg hOther]
      exact hNew offset s hs i hi hBound

/-! ## Characters -/

/-- The character at an offset of a text; a byte that begins none reads as the replacement character. -/
def decodeAt (bytes : List UInt8) (offset : Nat) : Option Decoded :=
  match bytes.drop offset with
  | [] => none
  | lead :: rest =>
    if h : 0 < Utf8.width lead then
      match Utf8.decode? ((lead :: rest).take (Utf8.width lead)) with
      | some c => some ⟨c, Utf8.width lead, h⟩
      | none => some illFormed
    else some illFormed

theorem decodeAt_eq_none {offset : Nat} : decodeAt bytes offset = none ↔ bytes.length ≤ offset := by
  rw [decodeAt, ← List.drop_eq_nil_iff]
  cases bytes.drop offset with
  | nil => simp
  | cons lead rest =>
    simp only [reduceCtorEq, iff_false]
    split
    · split <;> simp
    · simp

theorem length_of_decode? {lead : UInt8} {rest : List UInt8} {c : Char}
    (h : Utf8.decode? (lead :: rest) = some c) : (lead :: rest).length = Utf8.width lead := by
  match rest with
  | [] => rw [Utf8.decode?] at h; split at h <;> simp_all
  | [_] => rw [Utf8.decode?] at h; split at h <;> simp_all
  | [_, _] => rw [Utf8.decode?] at h; split at h <;> simp_all
  | [_, _, _] => rw [Utf8.decode?] at h; split at h <;> simp_all
  | _ :: _ :: _ :: _ :: _ => simp [Utf8.decode?] at h

theorem width_le_of_decodeAt {offset : Nat} {d : Decoded} (h : decodeAt bytes offset = some d) :
    offset + d.width ≤ bytes.length := by
  have hOffset : offset < bytes.length := by
    by_contra hPast
    rw [decodeAt_eq_none.mpr (by omega)] at h
    cases h
  have hLength := List.length_drop (i := offset) (l := bytes)
  rw [decodeAt] at h
  cases hDrop : bytes.drop offset with
  | nil => rw [hDrop] at h; cases h
  | cons lead rest =>
    rw [hDrop] at h hLength
    simp only at h
    split at h
    next hWidth =>
      split at h
      next c hDecode =>
        obtain rfl := Option.some.inj h
        obtain ⟨width, hWidthEq⟩ : ∃ n, Utf8.width lead = n + 1 := ⟨_, (Nat.succ_pred_eq_of_pos hWidth).symm⟩
        have hTake := length_of_decode? (by rwa [hWidthEq, List.take_succ_cons] at hDecode)
        simp only [List.length_cons, List.length_take] at hTake hLength ⊢
        omega
      next => obtain rfl := Option.some.inj h; simp only [illFormed]; omega
    next => obtain rfl := Option.some.inj h; simp only [illFormed]; omega

section Serving

variable (h : src.Serves Ok bytes)
include h

theorem Serves.read_eq {offset : Nat} {s : σ} (hs : Ok s) :
    (src.read offset s).1.Begins (bytes.drop offset) ∧ Ok (src.read offset s).2 ∧
      (offset < bytes.length → 0 < (src.read offset s).1.size) := by
  have hLength : src.size - offset = (bytes.drop offset).length := by rw [h.size_eq, List.length_drop]
  refine ⟨?_, h.ok offset s hs, fun hOffset => ?_⟩
  · simp only [read, hLength]
    refine Chunk.Begins.clip fun i hi hBound => ?_
    rw [List.getElem?_drop]
    exact h.get?_eq offset s i hs hi (by rw [List.length_drop] at hBound; omega)
  · have hPos := h.size_pos offset s hs hOffset
    have hSize := h.size_eq
    change 0 < ((src.chunkAt offset s).1.clip (src.size - offset)).size
    simp only [Chunk.size, Chunk.clip] at hPos ⊢
    omega

theorem Serves.gather_eq {missing offset : Nat} {front : List UInt8} {s : σ} (hs : Ok s) :
    (src.gather missing offset front s).1 =
        (if missing ≤ (bytes.drop offset).length then some (front ++ (bytes.drop offset).take missing) else none) ∧
      Ok (src.gather missing offset front s).2 := by
  fun_induction gather src missing offset front s with
  | case1 => simp [hs]
  | case2 missing offset front s hMissing chunk s' hRead hEmpty =>
    obtain ⟨hBegins, hOk, hPos⟩ := h.read_eq hs
    rw [hRead] at hBegins hOk hPos
    have hEnd : bytes.length ≤ offset := by
      by_contra hLt
      exact absurd hEmpty (Nat.ne_of_gt (hPos (by omega)))
    rw [List.drop_eq_nil_of_le hEnd]
    exact ⟨by simpa using hMissing, hOk⟩
  | case3 missing offset front s hMissing chunk s' hRead hEmpty n ih =>
    obtain ⟨hBegins, hOk, _⟩ := h.read_eq hs
    rw [hRead] at hBegins hOk
    obtain ⟨hEq, hOk'⟩ := ih hOk
    refine ⟨?_, hOk'⟩
    rw [hEq, hBegins.take_eq (Nat.min_le_right _ _), ← List.drop_drop]
    have hLe : chunk.size ≤ (bytes.drop offset).length := hBegins.size_le
    have hMin : n ≤ missing ∧ n ≤ chunk.size := ⟨Nat.min_le_left _ _, Nat.min_le_right _ _⟩
    have hSplit : (bytes.drop offset).take missing =
        (bytes.drop offset).take n ++ ((bytes.drop offset).drop n).take (missing - n) := by
      rw [← List.take_add, Nat.add_sub_cancel' hMin.1]
    rw [List.length_drop (l := bytes.drop offset), hSplit]
    by_cases hFits : missing ≤ (bytes.drop offset).length
    · rw [if_pos hFits, if_pos (by omega), List.append_assoc]
    · rw [if_neg hFits, if_neg (by omega)]

theorem Serves.charAt_eq {offset : Nat} {s : σ} (hs : Ok s) :
    (src.charAt offset s).1 = decodeAt bytes offset ∧ Ok (src.charAt offset s).2 := by
  obtain ⟨hBegins, hOk, hPos⟩ := h.read_eq hs
  rw [charAt, decodeAt]
  generalize src.read offset s = answer at hBegins hOk hPos
  obtain ⟨chunk, s'⟩ := answer
  dsimp only at hBegins hOk hPos ⊢
  cases hDrop : bytes.drop offset with
  | nil =>
    have hSize : chunk.size = 0 := by simpa [hDrop] using hBegins.size_le
    rw [Chunk.get?_eq_none (by omega)]
    exact ⟨rfl, hOk⟩
  | cons lead rest =>
    have hOffset : offset < bytes.length := by
      by_contra hPast
      rw [List.drop_eq_nil_of_le (by omega)] at hDrop
      cases hDrop
    rw [hBegins.get?_eq 0 (hPos hOffset), hDrop, List.getElem?_cons_zero]
    dsimp only
    split
    next hWidth =>
      have hLe : min (Utf8.width lead) chunk.size ≤ Utf8.width lead := Nat.min_le_left _ _
      have hTake := hBegins.take_eq (Nat.min_le_right (Utf8.width lead) chunk.size)
      obtain ⟨hGather, hOk'⟩ := h.gather_eq
        hOk
      -- The pieces together are the announced bytes, if the text is long enough.
      have hBytes : (src.gather (Utf8.width lead - min (Utf8.width lead) chunk.size)
          (offset + min (Utf8.width lead) chunk.size) (chunk.take (min (Utf8.width lead) chunk.size)) s').1.bind
            Utf8.decode? = Utf8.decode? ((lead :: rest).take (Utf8.width lead)) := by
        rw [hGather, hTake, ← List.drop_drop, ← List.take_add, Nat.add_sub_cancel' hLe, hDrop]
        split
        next => rfl
        next hShort =>
          rw [List.length_drop] at hShort
          have hChunk := hBegins.size_le
          rw [hDrop] at hChunk
          rw [List.take_of_length_le (by omega)]
          cases hDecode : Utf8.decode? (lead :: rest) with
          | none => rfl
          | some c => have := length_of_decode? hDecode; omega
      generalize src.gather _ _ _ s' = answer at hBytes hOk' ⊢
      obtain ⟨gathered, s''⟩ := answer
      dsimp only at hBytes hOk' ⊢
      rw [hBytes]
      cases Utf8.decode? ((lead :: rest).take (Utf8.width lead)) with
      | none => exact ⟨rfl, hOk'⟩
      | some c => exact ⟨rfl, hOk'⟩
    next => exact ⟨rfl, hOk⟩

end Serving

end Source
end Reparse
