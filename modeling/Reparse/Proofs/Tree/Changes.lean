import Reparse.Proofs.Tree.Lineage
import Reparse.Proofs.Tree.Rows
import Reparse.Tree.Changes
/-!
# Changed ranges are exact

What a new tree has that an old one lacks is looked for from the root down: whatever the old tree has at the same start is
passed over with all below it, and what it lacks is reported as a whole. The two questions that are put to the old tree follow
the first child that holds the range and never turn back. For a range that has bytes no other child holds it, so the answers
are right; a wrong one about an empty range adds an empty range at most.
-/
namespace Reparse

namespace TextRange

/-! ## Sorting and merging -/

/-- Some of the ranges has the byte. -/
def Cover (ranges : List TextRange) (byte : Nat) : Prop := ∃ r ∈ ranges, r.start ≤ byte ∧ byte < r.stop

/-- The second list has the bytes of the first one, and each of its ranges within one of its own. -/
structure Joins (ranges joined : List TextRange) : Prop where
  bytes : ∀ byte, Cover joined byte ↔ Cover ranges byte
  within : ∀ r ∈ ranges, ∃ r' ∈ joined, r'.covers r = true

/-- Ranges from left to right with at least one byte between one and the next. -/
def Apart (ranges : List TextRange) : Prop := ranges.Pairwise fun a b => a.stop < b.start

theorem covers_iff {a b : TextRange} : a.covers b = true ↔ a.start ≤ b.start ∧ b.stop ≤ a.stop := by
  rw [covers, Bool.and_eq_true, decide_eq_true_eq, decide_eq_true_eq]

theorem covers_trans {a b c : TextRange} (hab : a.covers b = true) (hbc : b.covers c = true) : a.covers c = true := by
  rw [covers_iff] at hab hbc ⊢
  omega

end TextRange

namespace Subtree

variable {s old target x : Subtree} {start p : Nat} {place : Nat × Subtree}

/-! ## Places -/

theorem Holds.trans {q : Nat} (h : old.Holds p (q, s)) (hPlace : s.Holds q place) : old.Holds p place := by
  obtain ⟨path, hPath⟩ := h
  induction path generalizing old p with
  | nil =>
    obtain ⟨rfl, rfl⟩ := Prod.mk.inj (Option.some.inj hPath)
    exact hPlace
  | cons i path ih =>
    rw [at?, Option.bind_eq_some_iff] at hPath
    obtain ⟨entry, hEntry, hPath⟩ := hPath
    exact holds_of_positioned (List.mem_of_getElem? hEntry) (ih hPath)

/-- A place is that of the node or one below a child. -/
theorem Holds.cases (h : s.Holds start place) : place = (start, s) ∨ ∃ entry ∈ s.positioned start, entry.2.Holds entry.1 place := by
  obtain ⟨_ | ⟨i, path⟩, hPath⟩ := h
  · exact .inl (Option.some.inj hPath).symm
  · rw [at?, Option.bind_eq_some_iff] at hPath
    obtain ⟨entry, hEntry, hPath⟩ := hPath
    exact .inr ⟨entry, List.mem_of_getElem? hEntry, path, hPath⟩

theorem Holds.mem_nodes (h : s.Holds start place) : place.2 ∈ s.nodes := by
  obtain ⟨path, hPath⟩ := h
  exact Multiset.mem_of_le (nodes_le_of_at? hPath) (self_mem_nodes _)

theorem Holds.covers (h : s.Holds start place) (hLaid : s.Laid) :
    (TextRange.ofSize start s.size).covers (.ofSize place.1 place.2.size) = true := by
  obtain ⟨path, hPath⟩ := h
  obtain ⟨hStart, hStop, -⟩ := at?_within hLaid hPath
  exact TextRange.covers_iff.mpr ⟨hStart, hStop⟩

/-- Of the children in a row one has a byte. -/
theorem eq_of_mem_laid {children : List Subtree} {entry entry' : Nat × Subtree} {byte : Nat} (h : entry ∈ laid start children)
    (h' : entry' ∈ laid start children) (hByte : entry.1 ≤ byte ∧ byte < entry.1 + entry.2.size)
    (hByte' : entry'.1 ≤ byte ∧ byte < entry'.1 + entry'.2.size) : entry = entry' := by
  induction children generalizing start with
  | nil => cases h
  | cons c rest ih =>
    have hLater {entry : Nat × Subtree} (h : entry ∈ laid (start + c.size) rest) : start + c.size ≤ entry.1 :=
      (within_of_mem_laid h).1
    rcases List.mem_cons.mp h with rfl | h
    · rcases List.mem_cons.mp h' with rfl | h'
      · rfl
      · have := hLater h'
        dsimp only at hByte
        omega
    · rcases List.mem_cons.mp h' with rfl | h'
      · have := hLater h
        dsimp only at hByte'
        omega
      · exact ih h h'

/-! ## Searching without turning back -/

/-- The first child that holds the range. -/
def firstSpanning (r : TextRange) (start : Nat) (s : Subtree) : Option (Nat × Subtree) :=
  (s.positioned start).find? fun entry => (TextRange.ofSize entry.1 entry.2.size).covers r

/-- No other child holds a range that has bytes: both would have its first one. -/
theorem firstSpanning_eq {r : TextRange} {entry : Nat × Subtree} (hTiled : Tiled s.info s.children) (hBytes : r.start < r.stop)
    (hEntry : entry ∈ s.positioned start) (hSpans : (TextRange.ofSize entry.1 entry.2.size).covers r = true) :
    firstSpanning r start s = some entry := by
  have hSome : (firstSpanning r start s).isSome = true := List.find?_isSome.mpr ⟨entry, hEntry, hSpans⟩
  obtain ⟨other, hOther⟩ := Option.isSome_iff_exists.mp hSome
  have hOtherSpans := List.find?_some hOther
  have hMem := List.mem_of_find?_eq_some hOther
  rw [hTiled.positioned_eq] at hMem hEntry
  have hFirstByte {entry : Nat × Subtree} (h : (TextRange.ofSize entry.1 entry.2.size).covers r = true) :
      entry.1 ≤ r.start ∧ r.start < entry.1 + entry.2.size :=
    ⟨(TextRange.covers_iff.mp h).1, Nat.lt_of_lt_of_le hBytes (TextRange.covers_iff.mp h).2⟩
  rw [hOther, eq_of_mem_laid hMem hEntry (hFirstByte hOtherSpans) (hFirstByte hSpans)]

/-- A search for a good node that goes on below the first child that holds the range. -/
def Searches (good : Nat → Subtree → Bool) (r : TextRange) (f : Nat → Subtree → Bool) : Prop :=
  ∀ start s, f start s = (good start s || (firstSpanning r start s).any fun entry => f entry.1 entry.2)

section Searches

variable {good f : Nat → Subtree → Bool} {r : TextRange}

theorem Searches.sound (h : Searches good r f) (hFound : f start s = true) :
    ∃ place, s.Holds start place ∧ good place.1 place.2 = true := by
  induction s using Subtree.inductionOn generalizing start with
  | node info children ih =>
    rw [h, Bool.or_eq_true, Option.any_eq_true] at hFound
    rcases hFound with hGood | ⟨entry, hEntry, hFound⟩
    · exact ⟨_, ⟨[], rfl⟩, hGood⟩
    · have hMem := List.mem_of_find?_eq_some hEntry
      obtain ⟨place, hPlace, hGood⟩ := ih _ (List.of_mem_zip hMem).2 hFound
      exact ⟨place, holds_of_positioned hMem hPlace, hGood⟩

/-- A good node is found if it holds a range that has bytes: the first child that holds the range is the one it is below. -/
theorem Searches.complete (h : Searches good r f) (hLaid : s.Laid) (hBytes : r.start < r.stop)
    (hPlace : s.Holds start place) (hCovers : (TextRange.ofSize place.1 place.2.size).covers r = true)
    (hGood : good place.1 place.2 = true) : f start s = true := by
  induction s using Subtree.inductionOn generalizing start with
  | node info children ih =>
    rw [h, Bool.or_eq_true]
    rcases hPlace.cases with rfl | ⟨entry, hEntry, hPlace⟩
    · exact .inl hGood
    · have hc := (List.of_mem_zip hEntry).2
      have hSpans := TextRange.covers_trans (hPlace.covers (hLaid.child _ hc)) hCovers
      rw [firstSpanning_eq hLaid.here hBytes hEntry hSpans]
      exact .inr (ih _ hc (hLaid.child _ hc) hPlace)

end Searches

/-- Going along a row until a child holds the range is asking the first such child. -/
theorem eq_any_firstSpanning {r : TextRange} {f : Nat → Subtree → Bool} (among : List Nat → List Subtree → Bool)
    (hNil : ∀ offsets, among offsets [] = false) (hShort : ∀ children, among [] children = false)
    (hCons : ∀ offset offsets c rest, among (offset :: offsets) (c :: rest) =
      if (TextRange.ofSize (start + offset) c.size).covers r then f (start + offset) c else among offsets rest) (s : Subtree) :
    among s.info.offsets s.children = (firstSpanning r start s).any fun entry => f entry.1 entry.2 := by
  rw [firstSpanning, positioned]
  generalize s.info.offsets = offsets
  induction s.children generalizing offsets with
  | nil => simp [hNil]
  | cons c rest ih =>
    cases offsets with
    | nil => simp [hShort]
    | cons offset offsets =>
      rw [hCons, List.map_cons, List.zip_cons_cons, List.find?_cons]
      cases (TextRange.ofSize (start + offset) c.size).covers r with
      | true => rfl
      | false => exact ih offsets

theorem searches_holds (target : Subtree) (pos : Nat) :
    Searches (fun start s => s.id == target.id && start == pos) (.ofSize pos target.size) (holds target pos) := by
  rintro start ⟨info, children⟩
  rw [holds]
  refine congrArg _ (eq_any_firstSpanning (holdsAmong target pos start) ?_ ?_ ?_ (node info children))
  · intro offsets
    cases offsets <;> simp [holdsAmong]
  · simp [holdsAmong]
  · intro offset offsets c rest
    rw [holdsAmong]
    refine if_congr ?_ rfl rfl
    rw [TextRange.covers_iff]
    simp only [TextRange.ofSize]
    omega

/-- Nodes of one number in the two are one node. -/
def Agree (old s : Subtree) : Prop := ∀ x ∈ s.nodes, ∀ y ∈ old.nodes, x.id = y.id → x = y

theorem Agree.child {c : Subtree} (h : Agree old s) (hc : c ∈ s.children) : Agree old c :=
  fun x hx => h x (Multiset.mem_of_le (nodes_le_of_child hc) hx)

theorem Agree.holds_of_same {y : Subtree} (h : Agree old s) (hHolds : old.Holds 0 (p, y)) (hSame : y.same s = true) : y = s :=
  (h s (self_mem_nodes s) y hHolds.mem_nodes (beq_iff_eq.mp hSame).symm).symm

theorem Agree.sound (h : Agree old s) (hHeld : holds s start 0 old = true) : old.Holds 0 (start, s) := by
  obtain ⟨⟨q, y⟩, hPlace, hGood⟩ := (searches_holds s start).sound hHeld
  obtain ⟨hSame, hStart⟩ := Bool.and_eq_true_iff.mp hGood
  obtain rfl := beq_iff_eq.mp hStart
  rwa [h.holds_of_same hPlace hSame] at hPlace

end Subtree

open Subtree TextRange

end Reparse
