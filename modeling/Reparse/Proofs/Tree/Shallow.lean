import Reparse.Proofs.Tree.Appearance
/-!
# The depth of balanced repetitions

A chain is split where the first part has half the weight. That part keeps the item that crosses the half, so one level need
not shed any weight, but two levels do: what stands before the crossing item has less than half the weight, and what is split
off again to the right of it has no more than half. So the depth of an item is at most twice the logarithm of the weight.
-/
namespace Reparse
namespace Chain

variable {c : Chain} {m : Maker} {weights : Array Nat} {lo hi split : Nat}

/-! ## Weights -/

/-- The weight of the items before the `i`th one. -/
def weightBefore (weights : Array Nat) (i : Nat) : Nat := (weights[i]?).getD 0

/-- Every item has a weight. -/
def Rises (c : Chain) (weights : Array Nat) : Prop := ∀ i < c.items.size, weightBefore weights i < weightBefore weights (i + 1)

theorem weights_foldl (items : List Subtree) (sums : Array Nat) (total i : Nat) :
    ((items.foldl (fun (sums, total) item =>
      let total := total + item.info.descendants
      (sums.push total, total)) (sums, total)).1)[i]? =
      if i < sums.size then sums[i]?
      else if i < sums.size + items.length then
        some (total + Subtree.totalOf (fun s => s.info.descendants) (items.take (i + 1 - sums.size)))
      else none := by
  induction items generalizing sums total with
  | nil => grind
  | cons item rest ih =>
    rw [List.foldl_cons, ih, Array.size_push, List.length_cons]
    rcases Nat.lt_trichotomy i sums.size with hLt | rfl | hGt
    · rw [if_pos (by omega), if_pos hLt, Array.getElem?_push_lt hLt, Array.getElem?_eq_getElem hLt]
    · simp
    · obtain ⟨k, rfl⟩ := Nat.exists_eq_add_of_lt hGt
      have hTake : sums.size + k + 1 + 1 - sums.size = sums.size + k + 1 + 1 - (sums.size + 1) + 1 := by omega
      have hBound : sums.size + k + 1 < sums.size + 1 + rest.length ↔ sums.size + k + 1 < sums.size + (rest.length + 1) := by
        omega
      conv_rhs => rw [if_neg (by omega), hTake, List.take_succ_cons, Subtree.totalOf_cons, ← Nat.add_assoc total]
      rw [if_neg (by omega)]
      exact if_congr hBound rfl rfl

theorem weightBefore_weights (items : List Subtree) {i : Nat} (hi : i ≤ items.length) :
    weightBefore (Chain.weights items) i = Subtree.totalOf (fun s => s.info.descendants) (items.take i) := by
  rw [weightBefore, Chain.weights, weights_foldl]
  cases i with
  | zero => rfl
  | succ i => simp [show i + 1 < 1 + items.length by omega]

theorem rises_weights (h : ∀ item ∈ c.items, 1 ≤ item.info.descendants) : c.Rises (Chain.weights c.items.toList) := by
  intro i hi
  have hItem := h c.items[i] (Array.getElem_mem hi)
  rw [weightBefore_weights _ (Nat.le_of_lt (by simpa using hi)), weightBefore_weights _ (by simpa using hi),
    List.take_add_one, Subtree.totalOf_append]
  simp only [Array.getElem?_toList, Array.getElem?_eq_getElem hi, Option.toList_some, Subtree.totalOf_cons, Subtree.totalOf_nil]
  omega

theorem Rises.le (h : c.Rises weights) {i j : Nat} (hij : i ≤ j) (hj : j ≤ c.items.size) :
    weightBefore weights i ≤ weightBefore weights j := by
  induction hij with
  | refl => exact Nat.le_refl _
  | step _ ih => exact (ih (Nat.le_of_succ_le hj)).trans (Nat.le_of_lt (h _ hj))

/-! ## Splitting -/

/-- Before the split there is less than half the weight; with it half, unless only one item is left. -/
theorem splitFrom_halves (weights : Array Nat) (lo : Nat) (hSplit : split < hi)
    (hLess : (weightBefore weights (split - 1) - weightBefore weights lo) * 2 <
      weightBefore weights hi - weightBefore weights lo) :
    (weightBefore weights (splitFrom weights lo hi split - 1) - weightBefore weights lo) * 2 <
        weightBefore weights hi - weightBefore weights lo ∧
      (splitFrom weights lo hi split + 1 = hi ∨ weightBefore weights hi - weightBefore weights lo ≤
        (weightBefore weights (splitFrom weights lo hi split) - weightBefore weights lo) * 2) := by
  fun_induction splitFrom weights lo hi split with
  | case1 split weight hMore ih => exact ih hMore.1 hMore.2
  | case2 split weight hDone =>
    refine ⟨hLess, ?_⟩
    rw [not_and, Nat.not_lt] at hDone
    by_cases hLast : split + 1 < hi
    · exact .inr (hDone hLast)
    · exact .inl (by omega)

/-! ## Depths -/

/-- One level further down. -/
def lowered (places : List (Nat × Subtree)) : List (Nat × Subtree) := places.map fun place => (place.1 + 1, place.2)

/-- Items hang in a tree of repetition nodes, in order, each so many repetition nodes below the top. -/
inductive Hangs (m : Maker) : Subtree → List (Nat × Subtree) → Prop
  | item (s : Subtree) : Hangs m s [(0, s)]
  | link {info : NodeInfo} {leading between trailing : List Subtree} {left right : Subtree} {a b : List (Nat × Subtree)} :
    info.symbol = m.symbol → info.production = m.production → Hangs m left a → Hangs m right b →
    Hangs m (.node info (leading ++ [left] ++ between ++ [right] ++ trailing)) (lowered (a ++ b))

/-- No place is deeper than `depth`. -/
def Within (depth : Nat) (places : List (Nat × Subtree)) : Prop := ∀ place ∈ places, place.1 ≤ depth

theorem within_lowered {depth : Nat} {a b : List (Nat × Subtree)} (ha : Within depth a) (hb : Within depth b) :
    Within (depth + 1) (lowered (a ++ b)) := by
  intro lower hLower
  obtain ⟨place, hPlace, rfl⟩ := List.mem_map.mp hLower
  rcases List.mem_append.mp hPlace with hPlace | hPlace
  · exact Nat.succ_le_succ (ha place hPlace)
  · exact Nat.succ_le_succ (hb place hPlace)

/-- How deep items are whose weight is `weight`, and `front` without that of the last one. -/
structure Depths (front weight : Nat) (places : List (Nat × Subtree)) : Prop where
  whole : ∀ k, weight < 2 ^ (k + 1) → Within (2 * k) places
  /-- A light front saves a level. -/
  light : ∀ k, front < 2 ^ k → weight < 2 ^ (k + 1) → Within (2 * k - 1) places

/-- The parts of a chain have the depths that it calls for, one level up. -/
theorem Depths.lowered {front weight front₁ weight₁ : Nat} {a b : List (Nat × Subtree)} (hFront : 0 < front)
    (hLast : front < weight) (hLeft : Depths front₁ weight₁ a) (hWithin : weight₁ ≤ front) (hLess : front₁ * 2 < weight)
    (hRight : Within 0 b ∨ ∃ front₂ weight₂, Depths front₂ weight₂ b ∧ weight₂ * 2 ≤ weight) :
    Depths front weight (lowered (a ++ b)) := by
  have hSecond {j : Nat} (hWeight : weight < 2 ^ (j + 1 + 1)) : Within (2 * j) b := by
    rcases hRight with hOne | ⟨_, _, hRight, hHalf⟩
    · exact fun place hPlace => (hOne place hPlace).trans (Nat.zero_le _)
    · exact hRight.whole j (by rw [Nat.pow_succ] at hWeight; omega)
  have hMono {i j : Nat} {places : List (Nat × Subtree)} (h : Within i places) (hij : i ≤ j) : Within j places :=
    fun place hPlace => (h place hPlace).trans hij
  constructor
  · intro k hk
    cases k with
    | zero =>
      -- A weight of one has no two parts.
      omega
    | succ j =>
      have hFirst := hLeft.light (j + 1) (by rw [Nat.pow_succ] at hk; omega) (by omega)
      rw [Nat.mul_succ, Nat.add_sub_cancel (2 * j + 1) 1] at hFirst
      exact within_lowered hFirst (hMono (hSecond hk) (Nat.le_succ _))
  · intro k hLight hk
    cases k with
    | zero => omega
    | succ j => exact within_lowered (hLeft.whole j (by omega)) (hSecond hk)

theorem map_lowered (places : List (Nat × Subtree)) : (lowered places).map Prod.snd = places.map Prod.snd := by
  simp [lowered, Function.comp_def]

/-- The items from `lo` up to `hi` hang in what is built of them, and not deeper than their weights call for. -/
theorem build_hangs (hRises : c.Rises weights) (hLo : lo < hi) (hHi : hi ≤ c.items.size) (leading trailing : List Subtree)
    (id : NodeId) : ∃ places, Hangs m (c.build m weights lo hi leading trailing id).1 places ∧
      places.map Prod.snd = (List.range' lo (hi - lo)).map c.item ∧ (lo + 1 = hi → Within 0 places) ∧
      Depths (weightBefore weights (hi - 1) - weightBefore weights lo) (weightBefore weights hi - weightBefore weights lo)
        places := by
  fun_induction Chain.build m c weights lo hi leading trailing id with
  | case1 lo hi leading trailing id first hMany split hBounds left id' hLeft right id'' hRight between children ihLeft ihRight =>
    obtain ⟨hSplit, hBelow⟩ : lo < split ∧ split < hi := ⟨hBounds.1, hBounds.2⟩
    obtain ⟨a, hHangs, hItems, -, hDepths⟩ := ihLeft hSplit (by omega)
    obtain ⟨b, hHangs', hItems', hOne, hDepths'⟩ := ihRight hBelow hHi
    rw [hLeft] at hHangs
    rw [hRight] at hHangs'
    have hFirst := hRises lo (by omega)
    have hFront := hRises.le (show lo + 1 ≤ hi - 1 by omega) (by omega)
    have hLast := hRises (hi - 1) (by omega)
    have hBefore := hRises.le (show split ≤ hi - 1 by omega) (by omega)
    rw [Nat.sub_add_cancel (by omega)] at hLast
    obtain ⟨hLess, hHalf⟩ := splitFrom_halves weights lo hMany (by rw [Nat.add_sub_cancel]; omega)
    refine ⟨_, .link rfl rfl hHangs hHangs', ?_, fun h => absurd hMany (by omega), ?_⟩
    · rw [map_lowered, List.map_append, hItems, hItems', ← List.map_append, show hi - lo = split - lo + (hi - split) by omega,
        ← List.range'_append_1, Nat.add_sub_cancel' (Nat.le_of_lt hSplit)]
    · refine Depths.lowered (by omega) (by omega) hDepths (by omega) hLess ?_
      rcases hHalf with hEnd | hHalf
      · exact .inl (hOne hEnd)
      · change _ ≤ (weightBefore weights split - _) * 2 at hHalf
        exact .inr ⟨_, _, hDepths', by omega⟩
  | case2 lo hi leading trailing id first hDone =>
    have hWithin (depth : Nat) : Within depth [(0, first)] := fun place hPlace => by
      rw [List.mem_singleton.mp hPlace]
      exact Nat.zero_le _
    refine ⟨_, .item _, ?_, fun _ => hWithin 0, fun _ _ => hWithin _, fun _ _ _ => hWithin _⟩
    rw [show hi - lo = 1 by omega]
    rfl

/-- In a balanced repetition no item is deeper than twice the logarithm of the weight, whatever the items weigh. -/
theorem build_shallow (m : Maker) (c : Chain) (leading trailing : List Subtree) (id : NodeId) (hTwo : 2 ≤ c.items.size)
    (hWeights : ∀ item ∈ c.items, 1 ≤ item.info.descendants) :
    ∃ places, Hangs m (c.build m (Chain.weights c.items.toList) 0 c.items.size leading trailing id).1 places ∧
      places.map Prod.snd = c.items.toList ∧
      ∀ place ∈ places, place.1 ≤ 2 * Nat.log2 (Subtree.totalOf (fun s => s.info.descendants) c.items.toList) := by
  obtain ⟨places, hHangs, hItems, -, hDepths⟩ := build_hangs (m := m) (rises_weights hWeights) (show 0 < c.items.size by omega)
    (Nat.le_refl _) leading trailing id
  refine ⟨places, hHangs, ?_, hDepths.whole _ ?_⟩
  · rw [hItems, Nat.sub_zero]
    refine List.ext_getElem (by simp) fun i hi hi' => ?_
    rw [Array.length_toList] at hi'
    simp [item, Array.getElem?_eq_getElem hi']
  · rw [weightBefore_weights _ (by simp), weightBefore_weights _ (Nat.zero_le _), List.take_of_length_le (by simp)]
    exact Nat.lt_log2_self

/-- Three tokens, and after them a list of six, which is heavier than all of them together. -/
def lopsided : Chain where
  leading := []
  items :=
    let token (id : NodeId) : Subtree := .leaf .listed id ⟨2⟩ 1 0 0 0 none
    #[token 0, token 1, token 2, .ofChildren .listed 9 ⟨3⟩ [token 3, token 4, token 5, token 6, token 7, token 8] 1 0]
  gaps := #[[], [], []]
  trailing := []

/-- The weight is ten, so no item is more than six levels down. -/
theorem lopsided_shallow : 2 ≤ lopsided.items.size ∧ (∀ item ∈ lopsided.items, 1 ≤ item.info.descendants) ∧
    ∃ places, Hangs ⟨.listed, ⟨3⟩, 0⟩ (lopsided.build ⟨.listed, ⟨3⟩, 0⟩ (Chain.weights lopsided.items.toList) 0
        lopsided.items.size [] [] 20).1 places ∧
      places.map Prod.snd = lopsided.items.toList ∧ ∀ place ∈ places, place.1 ≤ 6 := by
  have hTwo : 2 ≤ lopsided.items.size := by decide
  have hWeights : ∀ item ∈ lopsided.items, 1 ≤ item.info.descendants := by decide
  have hLog : 2 * Nat.log2 (Subtree.totalOf (fun s => s.info.descendants) lopsided.items.toList) = 6 := by decide
  obtain ⟨places, hHangs, hItems, hDepth⟩ := build_shallow ⟨.listed, ⟨3⟩, 0⟩ lopsided [] [] 20 hTwo hWeights
  exact ⟨hTwo, hWeights, places, hHangs, hItems, fun place hPlace => (hDepth place hPlace).trans_eq hLog⟩

end Chain
end Reparse
