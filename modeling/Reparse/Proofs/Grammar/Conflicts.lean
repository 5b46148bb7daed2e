import Reparse.Proofs.Grammar.Entries
import Reparse.Proofs.Grammar.Lowering
import Mathlib
/-!
# Where several reductions meet a shift

The reductions that are wanted of an entry have their say one after the other, in the order of the state's
items, each against what the entry holds. The documented rule is another one: of the reductions only
the earliest production faces the shift. `action_eq` is what the entry comes to hold, and
`action_eq_ruled_iff` where that is what the rule says: everywhere but where the earliest production yields
to the shift and a later one does not.
-/
namespace Reparse
namespace LoweredGrammar

variable {g : LoweredGrammar} {follow : Follow} {items complete : List LrItem} {s : Symbol}

/-- The complete item of a production wants the entry for a terminal. -/
def wants (g : LoweredGrammar) (follow : Follow) (s : Symbol) (id : Nat) : Bool :=
  (g.productions[id]?).any fun p => (followOf follow p.lhs).has s.index

/-- The productions that are wanted of an entry, in the order of the state's items. -/
def reductions (g : LoweredGrammar) (follow : Follow) (items : List LrItem) (s : Symbol) : List Nat :=
  ((g.completeItems items).map (·.production)).filter (g.wants follow s)

/-- A reduction takes the entry from the shift of its state. -/
def outranks (g : LoweredGrammar) (items : List LrItem) (s : Symbol) (id : Nat) : Bool :=
  (g.productions[id]?).any fun p =>
    p.binaryRepeat || g.shiftPrecedence items s < p.precedence ||
      (g.shiftPrecedence items s == p.precedence && p.assoc == .left)

/-- The rule as it is documented: of the reductions the earliest production stays, and it alone is held
against the shift. -/
def ruledEntry (g : LoweredGrammar) (follow : Follow) (state : ItemState) (s : Symbol) : Option Action :=
  match (g.reductions follow state.items s).min?, state.target? s with
  | none, target => target.map .shift
  | some r, none => some (.reduce r.toUInt16)
  | some r, some target => some (if g.outranks state.items s r then .reduce r.toUInt16 else .shift target)

/-- An entry after one more production has wanted it. -/
def contend (g : LoweredGrammar) (items : List LrItem) (s : Symbol) (entry : Option Action) (id : Nat) :
    Option Action :=
  match entry with
  | none => some (.reduce id.toUInt16)
  | some .accept => some .accept
  | some (.reduce other) => some (.reduce (if other ≤ id.toUInt16 then other else id.toUInt16))
  | some (.shift target) => some (if g.outranks items s id then .reduce id.toUInt16 else .shift target)

theorem lt_of_mem_reductions {id : Nat} (h : id ∈ g.reductions follow items s) : id < g.productions.size := by
  obtain ⟨p, hp, _⟩ := (Option.any_eq_true _ _).mp (List.mem_filter.mp h).2
  exact (Array.getElem?_eq_some_iff.mp hp).1

theorem resolveConflict_eq_contend {id : Nat} {p : LoweredProduction} (hp : g.productions[id]? = some p)
    (action : Action) : some (g.resolveConflict items s id.toUInt16 p action) = g.contend items s (some action) id := by
  cases action with
  | accept => rfl
  | reduce other => rfl
  | shift target =>
    rw [resolveConflict, contend, outranks, hp, Option.any_some]
    by_cases hRepeat : p.binaryRepeat = true
    · simp [hRepeat]
    rcases Int.lt_trichotomy p.precedence (g.shiftPrecedence items s) with hLt | hEq | hGt
    · simp [hRepeat, hLt, Int.not_lt.mpr hLt.le, ne_of_gt hLt]
    · cases hAssoc : p.assoc <;> simp [hRepeat, hEq]
    · simp [hRepeat, hGt, Int.not_lt.mpr hGt.le]

theorem addReduction_eq_contend {item : LrItem} (hOffer : g.offer? follow s item ≠ some .accept)
    (entry : Option Action) : g.addReduction follow items s entry item =
      if g.wants follow s item.production then g.contend items s entry item.production else entry := by
  rw [addReduction, wants]
  rw [offer?] at hOffer
  by_cases hStart : item.production = g.startRule
  · have hNone : g.productions[item.production]? = none := by rw [hStart, startRule]; simp
    rw [if_pos hStart] at hOffer ⊢
    rw [hNone, Option.any_none, if_neg Bool.false_ne_true]
    exact if_neg fun hEnd => hOffer (if_pos hEnd)
  · rw [if_neg hStart]
    cases hp : g.productions[item.production]? with
    | none => rfl
    | some p =>
      simp only [Option.any_some]
      split
      · cases entry with
        | none => rfl
        | some action => exact resolveConflict_eq_contend hp action
      · rfl

/-- An entry that accepts is not taken away again. -/
theorem foldl_addReduction_accept :
    complete.foldl (g.addReduction follow items s) (some .accept) = some .accept := by
  induction complete with
  | nil => rfl
  | cons item rest ih =>
    have hStep : g.addReduction follow items s (some .accept) item = some .accept := by
      by_cases hOffer : g.offer? follow s item = some .accept
      · rw [addReduction_eq, hOffer]
      · rw [addReduction_eq_contend hOffer]
        split <;> rfl
    rw [List.foldl_cons, hStep, ih]

/-- Unless something accepts, an entry comes about by the productions that want it, one after the other. -/
theorem foldl_addReduction_eq_contend {entry : Option Action}
    (hAccept : complete.foldl (g.addReduction follow items s) entry ≠ some .accept) :
    complete.foldl (g.addReduction follow items s) entry =
      ((complete.map (·.production)).filter (g.wants follow s)).foldl (g.contend items s) entry := by
  induction complete generalizing entry with
  | nil => rfl
  | cons item rest ih =>
    have hOffer : g.offer? follow s item ≠ some .accept := by
      intro hOffer
      refine hAccept ?_
      rw [List.foldl_cons, addReduction_eq, hOffer]
      exact foldl_addReduction_accept
    rw [List.foldl_cons] at hAccept ⊢
    rw [ih hAccept, addReduction_eq_contend hOffer, List.map_cons, List.filter_cons]
    split <;> rfl

section Contending

variable {ids : List Nat} (hIds : ∀ id ∈ ids, id < 65536)
include hIds

theorem foldl_contend_reduce {m : Nat} (hm : m < 65536) :
    ids.foldl (g.contend items s) (some (.reduce m.toUInt16)) = some (.reduce (ids.foldl min m).toUInt16) := by
  induction ids generalizing m with
  | nil => rfl
  | cons id rest ih =>
    have hId := hIds id List.mem_cons_self
    have hLe : m.toUInt16 ≤ id.toUInt16 ↔ m ≤ id := by
      rw [UInt16.le_iff_toNat_le]
      simp [Nat.mod_eq_of_lt hm, Nat.mod_eq_of_lt hId]
    have hMin : g.contend items s (some (.reduce m.toUInt16)) id = some (.reduce (min m id).toUInt16) := by
      rw [contend, Nat.min_def]
      by_cases h : m ≤ id
      · rw [if_pos h, if_pos (hLe.mpr h)]
      · rw [if_neg h, if_neg fun h' => h (hLe.mp h')]
    rw [List.foldl_cons, List.foldl_cons, hMin]
    exact ih (fun x hx => hIds x (List.mem_cons_of_mem _ hx)) (by omega)

theorem foldl_contend_none : ids.foldl (g.contend items s) none = ids.min?.map fun r => .reduce r.toUInt16 := by
  cases ids with
  | nil => rfl
  | cons id rest =>
    rw [List.foldl_cons, List.min?_cons']
    exact foldl_contend_reduce (fun x hx => hIds x (List.mem_cons_of_mem _ hx)) (hIds id List.mem_cons_self)

/-- The shift stays until a production outranks it; from there on the productions settle it among them. -/
theorem foldl_contend_shift (target : StateId) :
    ids.foldl (g.contend items s) (some (.shift target)) =
      some (((ids.dropWhile fun id => !g.outranks items s id).min?).elim (.shift target)
        fun r => .reduce r.toUInt16) := by
  induction ids with
  | nil => rfl
  | cons id rest ih =>
    have hRest := fun x hx => hIds x (List.mem_cons_of_mem id hx)
    rw [List.foldl_cons, List.dropWhile_cons, contend]
    cases g.outranks items s id with
    | false => exact ih hRest
    | true =>
      simp only [if_true, Bool.not_true, Bool.false_eq_true, if_false, List.min?_cons', Option.elim_some]
      exact foldl_contend_reduce hRest (hIds id List.mem_cons_self)

end Contending

/-- What an entry comes to hold, where it does not accept. -/
theorem actionEntry_eq {state : ItemState} (hFew : g.productions.size < 65535)
    (hAccept : g.actionEntry follow state (g.completeItems state.items) s ≠ some .accept) :
    g.actionEntry follow state (g.completeItems state.items) s =
      match state.target? s with
      | none => (g.reductions follow state.items s).min?.map fun r => .reduce r.toUInt16
      | some target =>
        some ((((g.reductions follow state.items s).dropWhile fun id => !g.outranks state.items s id).min?).elim
          (.shift target) fun r => .reduce r.toUInt16) := by
  have hIds : ∀ id ∈ g.reductions follow state.items s, id < 65536 := fun id hId => by
    have := lt_of_mem_reductions hId
    omega
  rw [actionEntry] at hAccept ⊢
  rw [foldl_addReduction_eq_contend hAccept]
  cases state.target? s with
  | none => exact foldl_contend_none hIds
  | some target => exact foldl_contend_shift hIds target

/-- The productions after those that yield contain the earliest one, if that one does not yield. -/
theorem min?_dropWhile {ids : List Nat} {p : Nat → Bool} {r : Nat} (hMin : ids.min? = some r) (hr : p r = true) :
    (ids.dropWhile fun id => !p id).min? = some r := by
  rw [List.min?_eq_some_iff] at hMin ⊢
  refine ⟨?_, fun b hb => hMin.2 b (List.dropWhile_sublist _ |>.subset hb)⟩
  have hSplit := List.mem_append.mp (List.takeWhile_append_dropWhile (p := fun id => !p id) (l := ids) ▸ hMin.1)
  refine hSplit.resolve_left fun hTake => ?_
  simpa [hr] using List.mem_takeWhile_imp hTake

/-- The earliest production yields to the shift, and a later one does not. -/
def PassedOver (g : LoweredGrammar) (follow : Follow) (state : ItemState) (s : Symbol) : Prop :=
  (state.target? s).isSome = true ∧ ∃ r, (g.reductions follow state.items s).min? = some r ∧
    g.outranks state.items s r = false ∧
    ∃ id ∈ g.reductions follow state.items s, g.outranks state.items s id = true

/-- An entry that does not accept holds what the rule says, unless a production was passed over. -/
theorem actionEntry_eq_ruled_iff {state : ItemState} (hFew : g.productions.size < 65535)
    (hAccept : g.actionEntry follow state (g.completeItems state.items) s ≠ some .accept) :
    g.actionEntry follow state (g.completeItems state.items) s = g.ruledEntry follow state s ↔
      ¬g.PassedOver follow state s := by
  rw [actionEntry_eq hFew hAccept, ruledEntry, PassedOver]
  cases hTarget : state.target? s with
  | none => cases hMin : (g.reductions follow state.items s).min? <;> simp
  | some target =>
    cases hMin : (g.reductions follow state.items s).min? with
    | none => simp [List.min?_eq_none_iff.mp hMin]
    | some r =>
      cases hOutranks : g.outranks state.items s r with
      | true => simp [min?_dropWhile hMin hOutranks, hOutranks]
      | false =>
        rw [not_and, not_exists]
        constructor
        · rintro hShift - r' ⟨-, -, id, hId, hWins⟩
          have hLeft : (g.reductions follow state.items s).dropWhile (fun id => !g.outranks state.items s id) ≠ [] :=
            fun hNil => by simpa [hWins] using List.dropWhile_eq_nil_iff.mp hNil id hId
          obtain ⟨winner, hWinner⟩ := Option.isSome_iff_exists.mp (List.isSome_min?_of_ne_nil hLeft)
          simp [hWinner, hOutranks] at hShift
        · intro hNone
          have hNil : (g.reductions follow state.items s).dropWhile (fun id => !g.outranks state.items s id) = [] := by
            refine List.dropWhile_eq_nil_iff.mpr fun id hId => ?_
            by_contra hWins
            exact hNone rfl r ⟨rfl, hOutranks, id, hId, by simpa using hWins⟩
          simp [hNil, hOutranks]

end LoweredGrammar

/-! ## Built tables -/

section Built

variable {g : Grammar} {l : LoweredGrammar} {states : Array LoweredGrammar.ItemState} {t : Table}
  {q : StateId} {s : Symbol} {state : LoweredGrammar.ItemState}

theorem Grammar.Built.action_eq_actionEntry (h : g.Built l states t) (hState : states[q.toNat]? = some state)
    (hTerm : l.isTerminal s = true) :
    t.action q s = l.actionEntry l.follow state (l.completeItems state.items) s := by
  obtain ⟨kernels, hAutomaton⟩ := LoweredGrammar.itemStates_eq_ok h.itemStates
  rw [h.table, LoweredGrammar.action_toTable hAutomaton.size_le_maxStates q hTerm, LoweredGrammar.entryAt, hState]
  rfl

/-- What the entries of a table hold where several productions and a shift want them: the shift, if all
productions yield to it, and otherwise the earliest production of those from the first that does not yield. -/
theorem Grammar.Built.action_settled (h : g.Built l states t) (hFew : l.productions.size < 65535)
    (hState : states[q.toNat]? = some state) (hTerm : l.isTerminal s = true) (hAccept : t.action q s ≠ some .accept) :
    t.action q s =
      match state.target? s with
      | none => (l.reductions l.follow state.items s).min?.map fun r => .reduce r.toUInt16
      | some target =>
        some ((((l.reductions l.follow state.items s).dropWhile fun id => !l.outranks state.items s id).min?).elim
          (.shift target) fun r => .reduce r.toUInt16) := by
  rw [h.action_eq_actionEntry hState hTerm] at hAccept ⊢
  exact LoweredGrammar.actionEntry_eq hFew hAccept

/-- The entries of a table hold what the documented rule says, except where the earliest production yields to the
shift and a later one does not. -/
theorem Grammar.Built.action_ruled_iff (h : g.Built l states t) (hFew : l.productions.size < 65535)
    (hState : states[q.toNat]? = some state) (hTerm : l.isTerminal s = true) (hAccept : t.action q s ≠ some .accept) :
    t.action q s = l.ruledEntry l.follow state s ↔ ¬l.PassedOver l.follow state s := by
  rw [h.action_eq_actionEntry hState hTerm] at hAccept ⊢
  exact LoweredGrammar.actionEntry_eq_ruled_iff hFew hAccept

end Built

namespace Grammar

/-- After `t` and before `x` two reductions meet a shift: the earlier one binds weaker than the shift, the later
one tighter. -/
def contested : Grammar where
  name := "contested"
  rules := [⟨"s", [.symbol "a", .literal "x"], 0, .none⟩, ⟨"s", [.symbol "b", .literal "x"], 0, .none⟩,
    ⟨"s", [.symbol "c"], 0, .none⟩, ⟨"a", [.literal "t"], -1, .none⟩, ⟨"b", [.literal "t"], 1, .none⟩,
    ⟨"c", [.literal "t", .literal "x"], 0, .none⟩]

/-- The productions of `contested`, with `x` and `t` as the first symbols, and its states. -/
def contestedLowered : LoweredGrammar :=
  contested.assemble [] [] none
    [⟨⟨3⟩, [⟨4⟩, ⟨1⟩], [], 0, .none, false⟩, ⟨⟨3⟩, [⟨5⟩, ⟨1⟩], [], 0, .none, false⟩, ⟨⟨3⟩, [⟨6⟩], [], 0, .none, false⟩,
      ⟨⟨4⟩, [⟨2⟩], [], -1, .none, false⟩, ⟨⟨5⟩, [⟨2⟩], [], 1, .none, false⟩, ⟨⟨6⟩, [⟨2⟩, ⟨1⟩], [], 0, .none, false⟩] ⟨3⟩

def contestedStates : Array LoweredGrammar.ItemState :=
  #[⟨[⟨6, 0⟩, ⟨0, 0⟩, ⟨1, 0⟩, ⟨2, 0⟩, ⟨3, 0⟩, ⟨4, 0⟩, ⟨5, 0⟩], [(⟨2⟩, 1), (⟨3⟩, 2), (⟨4⟩, 3), (⟨5⟩, 4), (⟨6⟩, 5)]⟩,
    ⟨[⟨3, 1⟩, ⟨4, 1⟩, ⟨5, 1⟩], [(⟨1⟩, 6)]⟩,
    ⟨[⟨6, 1⟩], []⟩,
    ⟨[⟨0, 1⟩], [(⟨1⟩, 7)]⟩,
    ⟨[⟨1, 1⟩], [(⟨1⟩, 8)]⟩,
    ⟨[⟨2, 1⟩], []⟩,
    ⟨[⟨5, 2⟩], []⟩,
    ⟨[⟨0, 2⟩], []⟩,
    ⟨[⟨1, 2⟩], []⟩]

theorem contested_build : contested.build = .ok (contestedLowered.toTable contestedStates) := by
  have hLower : contested.lower = .ok contestedLowered := by cbv
  have hStates : contestedLowered.itemStates = .ok contestedStates := by cbv
  have hFault : (contestedLowered.toTable contestedStates).fault? = none := by decide +kernel
  exact build_of_lower hLower hStates hFault

/-- The rule lets the earlier of two reductions face the shift, which wins; the table holds the later one. -/
theorem contested_passed_over : ∃ t, contested.build = .ok t ∧ t.action 1 ⟨1⟩ = some (.reduce 4) ∧
    ∃ state, contestedStates[1]? = some state ∧
      contestedLowered.ruledEntry contestedLowered.follow state ⟨1⟩ = some (.shift 6) ∧
      contestedLowered.PassedOver contestedLowered.follow state ⟨1⟩ := by
  refine ⟨_, contested_build, by decide +kernel, _, rfl, by decide +kernel, by decide +kernel, 3, ?_⟩
  exact ⟨by decide +kernel, by decide +kernel, 4, by decide +kernel, by decide +kernel⟩

end Grammar
end Reparse
