import Reparse.Query.Search
import Mathlib.Data.List.Basic
/-!
# Occurrences

What it is for a row of items to be found among siblings, said of all occurrences at once: `Placed` says
which siblings may be taken and which may be passed over, and `Step.Matches` when a step matches a node.
`Fills` says the same the way a search comes to it, one occurrence after the other, and `fills_iff` that
the two agree.
-/
namespace Reparse.Query

/-- The greatest number of occurrences, if there is one. -/
def Quantifier.most : Quantifier → Option Nat
  | one | optional => some 1
  | star | plus => none

/-- Whether `count` is between the least and the greatest number of occurrences. -/
def Quantifier.Admits (q : Quantifier) (count : Nat) : Prop :=
  q.least ≤ count ∧ ∀ most ∈ q.most, count ≤ most

theorem Quantifier.allows_iff {q : Quantifier} {count : Nat} :
    q.allows count = true ↔ ∀ most ∈ q.most, count + 1 ≤ most := by
  cases q <;> simp [Quantifier.allows, Quantifier.most]

namespace Item

def field : Item → Option FieldId
  | mk _ _ field _ => field

def anchored : Item → Bool
  | mk _ _ _ anchored => anchored

end Item

/-- One occurrence of an item: which item, the place of its sibling and what the step captures there. -/
structure Occurrence where
  item : Nat
  place : Nat
  captures : List Capture

namespace Occurrence

variable (os : List Occurrence)

/-- The place after the last occurrence. -/
def nextPlace : Nat := (os.getLast?.map fun o => o.place + 1).getD 0

def countOf (i : Nat) : Nat := os.countP fun o => o.item == i

@[simp] theorem nextPlace_nil : nextPlace [] = 0 := rfl

@[simp] theorem nextPlace_concat (o : Occurrence) : nextPlace (os ++ [o]) = o.place + 1 := by
  simp [nextPlace]

@[simp] theorem countOf_nil (i : Nat) : countOf [] i = 0 := rfl

theorem countOf_concat (o : Occurrence) (i : Nat) :
    countOf (os ++ [o]) i = countOf os i + if o.item = i then 1 else 0 := by
  by_cases h : o.item = i <;> simp [countOf, h]

variable {os}

theorem countOf_eq_zero {i : Nat} (h : ∀ o ∈ os, o.item ≠ i) : countOf os i = 0 :=
  List.countP_eq_zero.mpr fun o ho => by simpa using h o ho

end Occurrence

open Occurrence

/-- No sibling from the place `first` up to `last` is named. -/
def Unnamed (siblings : List Sibling) (first last : Nat) : Prop :=
  ∀ i n field, first ≤ i → i < last → siblings[i]? = some (n, field) → n.isNamed = false

/-- How near an occurrence is to those before it. The first one of a row at the top is at the first
sibling. Only unnamed siblings are passed over before any other one at the top, and below before the first
occurrence of an anchored item. -/
def Near (top : Bool) (items : List Item) (siblings : List Sibling) (before : List Occurrence)
    (o : Occurrence) : Prop :=
  if top ∧ before = [] then o.place = 0
  else top ∨ (countOf before o.item = 0 ∧ ∃ item ∈ items[o.item]?, item.anchored) →
    Unnamed siblings (nextPlace before) o.place

/-- The occurrences of a row of items among siblings. -/
structure Placed (top anchoredEnd : Bool) (items : List Item) (siblings : List Sibling)
    (os : List Occurrence) : Prop where
  ordered : os.Pairwise fun a b => a.item ≤ b.item ∧ a.place < b.place
  counts : ∀ i (item : Item), items[i]? = some item → item.quantifier.Admits (countOf os i)
  taken : ∀ o ∈ os, ∃ item n field, items[o.item]? = some item ∧ siblings[o.place]? = some (n, field) ∧
    ∀ wanted ∈ item.field, field = some wanted
  near : ∀ before o after, os = before ++ o :: after → Near top items siblings before o
  last : anchoredEnd → Unnamed siblings (nextPlace os) siblings.length

/-- When a step matches a node with these captures: the node passes the test, has no child in a field of
`absent`, and the items, if there are any, are placed among its children, each where its own step matches;
or one of the branches matches. -/
inductive Step.Matches : Step → Node → List Capture → Prop
  | leaf {test anchoredEnd absent captures n} (passes : test.holds n)
      (absents : ∀ c ∈ n.childrenWithFields, ∀ field ∈ c.2, field ∉ absent) :
      Step.Matches (.node test [] anchoredEnd absent captures) n (capturesAt n captures)
  | node {test items anchoredEnd absent captures n os} (passes : test.holds n)
      (absents : ∀ c ∈ n.childrenWithFields, ∀ field ∈ c.2, field ∉ absent)
      (nonempty : items ≠ []) (placed : Placed false anchoredEnd items n.childrenWithFields os)
      (each : ∀ o ∈ os, ∀ item c field, items[o.item]? = some item →
        n.childrenWithFields[o.place]? = some (c, field) → Step.Matches item.step c o.captures) :
      Step.Matches (.node test items anchoredEnd absent captures) n
        (capturesAt n captures ++ os.flatMap (·.captures))
  | branch {branches captures n s here} (mem : s ∈ branches) (below : Step.Matches s n here) :
      Step.Matches (.oneOf branches captures) n (capturesAt n captures ++ here)

/-- At each occurrence the item's step matches. -/
def Found (items : List Item) (siblings : List Sibling) (os : List Occurrence) : Prop :=
  ∀ o ∈ os, ∀ item n field, items[o.item]? = some item → siblings[o.place]? = some (n, field) →
    item.step.Matches n o.captures

/-- Whether a row of items has occurrences among siblings, with these captures. -/
def Assigned (top anchoredEnd : Bool) (items : List Item) (siblings : List Sibling)
    (captures : List Capture) : Prop :=
  ∃ os, Placed top anchoredEnd items siblings os ∧ Found items siblings os ∧
    captures = os.flatMap (·.captures)

/-! ## One occurrence after the other -/

/-- Whether the gap may hold these siblings. -/
def Gap.Spans (gap : Gap) (siblings : List Sibling) : Prop := ∀ c ∈ siblings, gap.stopsAt c.1 = false

/-- A row of items is found among siblings, `count` occurrences of the first item being found already: no
item is left, the next item's turn comes, or the first item takes a sibling. -/
inductive Fills (anchoredEnd : Bool) :
    RowKind → Nat → List Item → List Sibling → List Capture → Prop
  | done {kind count siblings} (last : anchoredEnd → ∀ c ∈ siblings, c.1.isNamed = false) :
      Fills anchoredEnd kind count [] siblings []
  | next {kind count item rest siblings captures} (enough : item.quantifier.least ≤ count)
      (more : Fills anchoredEnd kind.next 0 rest siblings captures) :
      Fills anchoredEnd kind count (item :: rest) siblings captures
  | take {kind count item rest skipped n field after here more}
      (allowed : item.quantifier.allows count) (gap : (kind.gap item.anchored count).Spans skipped)
      (fits : ∀ wanted ∈ item.field, field = some wanted) (found : item.step.Matches n here)
      (next : Fills anchoredEnd kind (count + 1) (item :: rest) after more) :
      Fills anchoredEnd kind count (item :: rest) (skipped ++ (n, field) :: after) (here ++ more)

/-- The kind that a row has at its `i`th item. -/
def kindAt (top : Bool) (i : Nat) : RowKind :=
  if top then if i = 0 then .head else .tail else .inner

theorem kindAt_next (top : Bool) (i : Nat) : (kindAt top i).next = kindAt top (i + 1) := by
  cases top <;> by_cases h : i = 0 <;> simp [kindAt, h, RowKind.next]

section Places

variable {siblings skipped after : List Sibling} {c : Sibling} {first place : Nat}

theorem get_of_drop_eq (h : siblings.drop first = skipped ++ c :: after) :
    siblings[first + skipped.length]? = some c := by
  rw [← List.getElem?_drop, h]
  simp

theorem drop_of_drop_eq (h : siblings.drop first = skipped ++ c :: after) :
    siblings.drop (first + skipped.length + 1) = after := by
  rw [Nat.add_assoc, ← List.drop_drop, h]
  simp

theorem unnamed_of_drop_eq (h : siblings.drop first = skipped ++ c :: after) :
    Unnamed siblings first (first + skipped.length) ↔ ∀ s ∈ skipped, s.1.isNamed = false := by
  have get (i : Nat) (hi : i < skipped.length) : siblings[first + i]? = some skipped[i] := by
    rw [← List.getElem?_drop, h, List.getElem?_append_left hi, List.getElem?_eq_getElem hi]
  constructor
  · intro hu s hs
    obtain ⟨i, hi, rfl⟩ := List.mem_iff_getElem.mp hs
    exact hu (first + i) skipped[i].1 skipped[i].2 (by omega) (by omega) (get i hi)
  · intro hs i n field hfirst hlast hi
    obtain ⟨i, rfl⟩ := Nat.exists_eq_add_of_le hfirst
    have hlt : i < skipped.length := by omega
    rw [get i hlt] at hi
    simpa [Option.some.inj hi] using hs _ (List.getElem_mem hlt)

theorem drop_eq_of_get (h : siblings[place]? = some c) (hle : first ≤ place) :
    ∃ skipped, first + skipped.length = place ∧
      siblings.drop first = skipped ++ c :: siblings.drop (place + 1) := by
  obtain ⟨hlt, rfl⟩ := List.getElem?_eq_some_iff.mp h
  refine ⟨(siblings.drop first).take (place - first), by simp; omega, ?_⟩
  conv_lhs => rw [← List.take_append_drop (place - first) (siblings.drop first)]
  rw [List.drop_drop, Nat.add_sub_cancel' hle, List.drop_eq_getElem_cons hlt]

theorem unnamed_to_end :
    Unnamed siblings first siblings.length ↔ ∀ s ∈ siblings.drop first, s.1.isNamed = false := by
  constructor
  · intro hu s hs
    obtain ⟨i, hi, rfl⟩ := List.mem_iff_getElem.mp hs
    rw [List.length_drop] at hi
    rw [List.getElem_drop]
    exact hu (first + i) _ _ (by omega) (by omega) (List.getElem?_eq_getElem (by omega))
  · intro hs i n field hfirst hlast hi
    refine hs (n, field) (List.mem_iff_getElem?.mpr ⟨i - first, ?_⟩)
    rwa [List.getElem?_drop, Nat.add_sub_cancel' hfirst]

end Places

section Rows

variable {top anchoredEnd : Bool} {items : List Item} {siblings : List Sibling}

/-- What holds of the occurrences `before` when a row has come to its `i`th item. -/
structure Begun (top : Bool) (items : List Item) (siblings : List Sibling) (i : Nat)
    (before : List Occurrence) : Prop where
  ordered : before.Pairwise fun a b => a.item ≤ b.item ∧ a.place < b.place
  upTo : ∀ o ∈ before, o.item ≤ i ∧ o.place < nextPlace before
  counts : ∀ j (item : Item), j < i → items[j]? = some item → item.quantifier.Admits (countOf before j)
  within : ∀ item : Item, items[i]? = some item → ∀ most ∈ item.quantifier.most, countOf before i ≤ most
  taken : ∀ o ∈ before, ∃ item n field, items[o.item]? = some item ∧
    siblings[o.place]? = some (n, field) ∧ ∀ wanted ∈ item.field, field = some wanted
  near : ∀ earlier o later, before = earlier ++ o :: later → Near top items siblings earlier o

namespace Begun

variable {i : Nat} {before : List Occurrence}

theorem nil : Begun top items siblings 0 [] where
  ordered := .nil
  upTo := by simp
  counts := by simp
  within := by simp
  taken := by simp
  near := by simp

theorem next (h : Begun top items siblings i before) {item : Item} (hi : items[i]? = some item)
    (enough : item.quantifier.least ≤ countOf before i) : Begun top items siblings (i + 1) before where
  ordered := h.ordered
  upTo o ho := ⟨Nat.le_succ_of_le (h.upTo o ho).1, (h.upTo o ho).2⟩
  counts j other hj hother := by
    rcases Nat.lt_succ_iff_lt_or_eq.mp hj with hlt | rfl
    · exact h.counts j other hlt hother
    · cases hi.symm.trans hother
      exact ⟨enough, h.within item hi⟩
  within _ _ most _ := by
    rw [countOf_eq_zero fun o ho => Nat.ne_of_lt (Nat.lt_succ_of_le (h.upTo o ho).1)]
    exact Nat.zero_le _
  taken := h.taken
  near := h.near

theorem concat (h : Begun top items siblings i before) {item : Item} (hi : items[i]? = some item)
    (allowed : item.quantifier.allows (countOf before i)) {o : Occurrence} (ho : o.item = i)
    (after : nextPlace before ≤ o.place) {n : Node} {field : Option FieldId}
    (hplace : siblings[o.place]? = some (n, field)) (fits : ∀ wanted ∈ item.field, field = some wanted)
    (near : Near top items siblings before o) : Begun top items siblings i (before ++ [o]) where
  ordered := List.pairwise_append.mpr ⟨h.ordered, List.pairwise_singleton _ _, by
    rintro a ha b hb
    obtain rfl := List.mem_singleton.mp hb
    exact ⟨ho ▸ (h.upTo a ha).1, Nat.lt_of_lt_of_le (h.upTo a ha).2 after⟩⟩
  upTo a ha := by
    rw [nextPlace_concat]
    rcases List.mem_append.mp ha with ha | ha
    · exact ⟨(h.upTo a ha).1, Nat.lt_succ_of_lt (Nat.lt_of_lt_of_le (h.upTo a ha).2 after)⟩
    · obtain rfl := List.mem_singleton.mp ha
      exact ⟨Nat.le_of_eq ho, Nat.lt_succ_self _⟩
  counts j other hj hother := by
    rw [countOf_concat, if_neg (by omega)]
    exact h.counts j other hj hother
  within other hother most hmost := by
    cases hi.symm.trans hother
    rw [countOf_concat, if_pos ho]
    exact Quantifier.allows_iff.mp allowed most hmost
  taken a ha := by
    rcases List.mem_append.mp ha with ha | ha
    · exact h.taken a ha
    · obtain rfl := List.mem_singleton.mp ha
      exact ⟨item, n, field, ho ▸ hi, hplace, fits⟩
  near earlier a later heq := by
    rcases List.eq_nil_or_concat later with rfl | ⟨later, b, rfl⟩
    · obtain ⟨rfl, hlast⟩ := List.append_inj' heq rfl
      obtain rfl := List.singleton_inj.mp hlast
      exact near
    · rw [List.concat_eq_append, ← List.cons_append, ← List.append_assoc] at heq
      exact h.near earlier a later (List.append_inj' heq rfl).1

/-- Between occurrences of a row at the top only unnamed siblings are passed over. -/
theorem gap_eq (h : Begun true items siblings i before) (hne : before ≠ []) (anchored : Bool) :
    (kindAt true i).gap anchored (countOf before i) = .anonymous := by
  by_cases hi : i = 0
  · have hcount : countOf before i ≠ 0 := fun h0 => by
      obtain ⟨o, ho⟩ := List.exists_mem_of_ne_nil before hne
      have hitem := (h.upTo o ho).1
      have hno := List.countP_eq_zero.mp h0 o ho
      simp at hno
      omega
    simp [kindAt, hi, RowKind.gap] at hcount ⊢
    exact hcount
  · simp [kindAt, hi, RowKind.gap]

variable {item : Item} {skipped after : List Sibling} {c : Sibling} {o : Occurrence}

theorem near_of_spans (h : Begun top items siblings i before)
    (head : top → ∀ item ∈ items.head?, 1 ≤ item.quantifier.least) (hi : items[i]? = some item)
    (heq : siblings.drop (nextPlace before) = skipped ++ c :: after) (ho : o.item = i)
    (hplace : o.place = nextPlace before + skipped.length)
    (gap : ((kindAt top i).gap item.anchored (countOf before i)).Spans skipped) :
    Near top items siblings before o := by
  unfold Near
  split
  next hfirst =>
    obtain ⟨rfl, rfl⟩ := hfirst
    -- a later item has no turn before the first one has occurred
    obtain rfl : i = 0 := by
      by_contra hi0
      have hlt : 0 < items.length := Nat.lt_of_lt_of_le (Nat.pos_of_ne_zero hi0)
        (Nat.le_of_lt (List.getElem?_eq_some_iff.mp hi).1)
      have hleast := (h.counts 0 items[0] (Nat.pos_of_ne_zero hi0) (List.getElem?_eq_getElem hlt)).1
      have hone := head rfl items[0] (by simp [List.head?_eq_getElem?, hlt])
      simp at hleast
      omega
    have hnone : skipped = [] := List.eq_nil_iff_forall_not_mem.mpr fun s hs => by
      simpa [kindAt, RowKind.gap, Gap.stopsAt] using gap s hs
    simpa [hnone] using hplace
  next hlater =>
    intro hwhen
    rw [hplace, unnamed_of_drop_eq heq]
    have hgap : (kindAt top i).gap item.anchored (countOf before i) = .anonymous := by
      cases top with
      | true => exact h.gap_eq (fun hnil => hlater ⟨rfl, hnil⟩) _
      | false =>
        obtain ⟨hcount, other, hother, hanchored⟩ := hwhen.resolve_left (by simp)
        rw [ho] at hcount hother
        cases hi.symm.trans hother
        simp [kindAt, RowKind.gap, hanchored, hcount]
    rwa [hgap] at gap

theorem spans_of_near (h : Begun top items siblings i before) (hi : items[i]? = some item)
    (heq : siblings.drop (nextPlace before) = skipped ++ c :: after) (ho : o.item = i)
    (hplace : o.place = nextPlace before + skipped.length) (near : Near top items siblings before o) :
    ((kindAt top i).gap item.anchored (countOf before i)).Spans skipped := by
  unfold Near at near
  split at near
  next hfirst =>
    rw [hplace] at near
    rw [List.eq_nil_of_length_eq_zero (by omega : skipped.length = 0)]
    simp [Gap.Spans]
  next hlater =>
    rw [hplace, unnamed_of_drop_eq heq, ho] at near
    cases top with
    | true =>
      rw [h.gap_eq fun hnil => hlater ⟨rfl, hnil⟩]
      exact near (.inl rfl)
    | false =>
      by_cases hwhen : item.anchored = true ∧ countOf before i = 0
      · have hgap : (kindAt false i).gap item.anchored (countOf before i) = .anonymous := by
          simp [kindAt, RowKind.gap, hwhen.1, hwhen.2]
        rw [hgap]
        exact near (.inr ⟨hwhen.2, item, hi, hwhen.1⟩)
      · have hgap : (kindAt false i).gap item.anchored (countOf before i) = .anything := by
          simpa [kindAt, RowKind.gap] using hwhen
        rw [hgap]
        exact fun _ _ => rfl

end Begun

theorem get_of_drop_cons {i : Nat} {item : Item} {rest : List Item} (h : item :: rest = items.drop i) :
    items[i]? = some item ∧ rest = items.drop (i + 1) := by
  constructor
  · rw [← Nat.add_zero i, ← List.getElem?_drop, ← h]
    rfl
  · rw [← List.drop_drop, ← h]
    rfl

/-- What is found one after the other is placed as a whole. -/
theorem Fills.placed {kind : RowKind} {count : Nat} {rest : List Item} {left : List Sibling}
    {captures : List Capture} (h : Fills anchoredEnd kind count rest left captures)
    (head : top → ∀ item ∈ items.head?, 1 ≤ item.quantifier.least) {i : Nat} {before : List Occurrence}
    (begun : Begun top items siblings i before) (hkind : kind = kindAt top i)
    (hcount : count = countOf before i) (hrest : rest = items.drop i)
    (hleft : left = siblings.drop (nextPlace before)) :
    ∃ os, Placed top anchoredEnd items siblings (before ++ os) ∧ Found items siblings os ∧
      captures = os.flatMap (·.captures) := by
  induction h generalizing i before with
  | done last =>
    refine ⟨[], ⟨?_, ?_, ?_, ?_, ?_⟩, by simp [Found], rfl⟩ <;> simp only [List.append_nil]
    · exact begun.ordered
    · intro j item hj
      have hlength : items.length ≤ i := by simpa using hrest.symm
      exact begun.counts j item (Nat.lt_of_lt_of_le (List.getElem?_eq_some_iff.mp hj).1 hlength) hj
    · exact begun.taken
    · exact begun.near
    · intro hend
      rw [unnamed_to_end, ← hleft]
      exact last hend
  | next enough _ ih =>
    obtain ⟨hi, hrest⟩ := get_of_drop_cons hrest
    have hnone : countOf before (i + 1) = 0 :=
      countOf_eq_zero fun o ho => Nat.ne_of_lt (Nat.lt_succ_of_le (begun.upTo o ho).1)
    exact ih (begun.next hi (hcount ▸ enough)) (by rw [hkind, kindAt_next]) hnone.symm hrest hleft
  | @take kind count item rest skipped n field after here more allowed gap fits found _ ih =>
    obtain ⟨hi, -⟩ := get_of_drop_cons hrest
    subst hkind hcount
    let o : Occurrence := ⟨i, nextPlace before + skipped.length, here⟩
    have hplace := get_of_drop_eq hleft.symm
    obtain ⟨os, placed, each, rfl⟩ := ih
      (begun.concat hi allowed (o := o) rfl (Nat.le_add_right _ _) hplace fits
        (begun.near_of_spans head hi hleft.symm rfl rfl gap))
      rfl (by simp [countOf_concat, o]) hrest
      (by rw [nextPlace_concat, drop_of_drop_eq hleft.symm])
    refine ⟨o :: os, by simpa using placed, ?_, rfl⟩
    rintro a ha other m f hother hm
    rcases List.mem_cons.mp ha with rfl | ha
    · cases hi.symm.trans hother
      cases hplace.symm.trans hm
      exact found
    · exact each a ha other m f hother hm

/-- What is placed as a whole is found one after the other: by recursion on the occurrences and items that
are left. -/
theorem Placed.fills {before after : List Occurrence}
    (h : Placed top anchoredEnd items siblings (before ++ after)) (each : Found items siblings after) {i : Nat}
    (begun : Begun top items siblings i before) (later : ∀ o ∈ after, i ≤ o.item) :
    Fills anchoredEnd (kindAt top i) (countOf before i) (items.drop i)
      (siblings.drop (nextPlace before)) (after.flatMap (·.captures)) := by
  cases hdrop : items.drop i with
  | nil =>
    have hnone : after = [] := List.eq_nil_iff_forall_not_mem.mpr fun o ho => by
      obtain ⟨item, -, -, hitem, -⟩ := h.taken o (List.mem_append_right _ ho)
      have hlt := (List.getElem?_eq_some_iff.mp hitem).1
      have hlength : items.length ≤ i := by simpa using hdrop
      have := later o ho
      omega
    subst hnone
    rw [List.append_nil] at h
    exact .done fun hend => unnamed_to_end.mp (h.last hend)
  | cons item rest =>
    obtain ⟨hi, hrest⟩ := get_of_drop_cons hdrop.symm
    have hlt : i < items.length := (List.getElem?_eq_some_iff.mp hi).1
    by_cases hturn : ∀ o ∈ after, i + 1 ≤ o.item
    · -- the item has all its occurrences
      have hsame : countOf (before ++ after) i = countOf before i := by
        have := countOf_eq_zero fun o ho => Nat.ne_of_gt (Nat.lt_of_succ_le (hturn o ho))
        simpa [countOf] using this
      have enough : item.quantifier.least ≤ countOf before i := hsame ▸ (h.counts i item hi).1
      have hnone : countOf before (i + 1) = 0 :=
        countOf_eq_zero fun o ho => Nat.ne_of_lt (Nat.lt_succ_of_le (begun.upTo o ho).1)
      have more := h.fills each (begun.next hi enough) hturn
      rw [← kindAt_next, hnone, ← hrest] at more
      exact .next enough more
    · obtain ⟨o, after, rfl, ho⟩ : ∃ o rest, after = o :: rest ∧ o.item = i := by
        cases after with
        | nil => simp at hturn
        | cons o after =>
          refine ⟨o, after, rfl, ?_⟩
          by_contra hne
          have hnext : i + 1 ≤ o.item := Nat.lt_of_le_of_ne (later o List.mem_cons_self) (Ne.symm hne)
          have hrise := (List.pairwise_cons.mp (List.pairwise_append.mp h.ordered).2.1).1
          refine hturn fun a ha => ?_
          rcases List.mem_cons.mp ha with rfl | ha
          · exact hnext
          · exact Nat.le_trans hnext (hrise a ha).1
      obtain ⟨_, n, field, hitem, hplace, fits⟩ := h.taken o (by simp)
      rw [ho] at hitem
      cases hi.symm.trans hitem
      have hle : nextPlace before ≤ o.place := by
        rcases List.eq_nil_or_concat before with rfl | ⟨earlier, b, rfl⟩
        · exact Nat.zero_le _
        · rw [List.concat_eq_append, nextPlace_concat]
          exact ((List.pairwise_append.mp h.ordered).2.2 b (by simp) o (by simp)).2
      obtain ⟨skipped, hlength, heq⟩ := drop_eq_of_get hplace hle
      have near := h.near before o after rfl
      have allowed : item.quantifier.allows (countOf before i) := by
        refine Quantifier.allows_iff.mpr fun most hmost => Nat.le_trans ?_ ((h.counts i item hi).2 most hmost)
        simp [countOf, ho]
      rw [← List.singleton_append, ← List.append_assoc] at h
      have more := h.fills (fun a ha => each a (List.mem_cons_of_mem _ ha))
        (begun.concat hi allowed ho hle hplace fits near)
        (fun a ha => later a (List.mem_cons_of_mem _ ha))
      rw [countOf_concat, if_pos ho, nextPlace_concat, hdrop] at more
      rw [heq]
      exact .take allowed (begun.spans_of_near hi heq ho hlength.symm near) fits
        (each o List.mem_cons_self item n field (ho ▸ hi) hplace) more
termination_by (items.length - i) + after.length

/-- A row is found one occurrence after the other exactly if it has occurrences as a whole. At the top the
first item has to occur. -/
theorem fills_iff (top : Bool) (head : top → ∀ item ∈ items.head?, 1 ≤ item.quantifier.least)
    (captures : List Capture) :
    Fills anchoredEnd (kindAt top 0) 0 items siblings captures ↔
      Assigned top anchoredEnd items siblings captures := by
  constructor
  · intro h
    exact h.placed head .nil rfl rfl rfl rfl
  · rintro ⟨os, placed, each, rfl⟩
    have placed : Placed top anchoredEnd items siblings ([] ++ os) := placed
    exact placed.fills each .nil fun _ _ => Nat.zero_le _

end Rows

end Reparse.Query
