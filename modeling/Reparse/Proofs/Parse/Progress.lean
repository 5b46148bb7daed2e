import Reparse.Proofs.Parse.Coverage
/-!
# Progress

Whatever is proposed for recovery, the steps of a run that do not reduce are in proportion to the text. A recovery
moves on, or it is one of few at its position: `Session.stepsLeft` falls with every step but a reduction.
-/
namespace Reparse

open Subtree

variable {σ : Type}

namespace Session

/-- How many of the first steps do not reduce. -/
def nonReductions (env : SessionEnv σ) : (steps : Nat) → Session σ → Nat
  | 0, _ => 0
  | steps + 1, s =>
    (if (s.reduction? env).isSome then 0 else 1) +
      match s.next env with
      | .running t => nonReductions env steps t
      | .finished .. => 0

/-- Bound on the steps without a reduction before the last one. At a position there are as many recoveries as are
allowed, each with an inserted token at most, and then the position moves on. -/
def stepsLeft (size : Nat) (s : Session σ) : Nat :=
  8 * (size - s.position) + 2 * (maxRecoveries + 1 - s.attempts) + (if s.pending.any Lookahead.isMissing then 1 else 0)
    + (if s.wrapped then 0 else 1)

/-- Recoveries were made up to the position, and no inserted token is deferred. -/
structure Paced (s : Session σ) : Prop where
  recoveries : ∀ r, s.recoveries = some r → r.1 ≤ s.position
  deferred : ∀ d, s.deferred = some d → d.isMissing = false

/-- A step of some cost is paid for. -/
def PaysAfter (size left : Nat) (reduction : Option ProductionId) : Progress σ → Prop
  | .running s => s.Paced ∧ s.stepsLeft size + (if reduction.isSome then 0 else 1) ≤ left
  | .finished .. => reduction = none

variable {env : SessionEnv σ} {Ok : σ → Prop} {bytes : List UInt8} {room size left : Nat} {s t : Session σ} {la : Lookahead}
  {g : Grammar}

theorem attempts_pos (s : Session σ) : 0 < s.attempts := by
  rw [attempts]
  split
  · split
    · exact Nat.succ_pos _
    · exact Nat.one_pos
  · exact Nat.one_pos

theorem attempts_congr (hPosition : t.position = s.position) (hRecoveries : t.recoveries = s.recoveries) :
    t.attempts = s.attempts := by
  rw [attempts, attempts, hPosition, hRecoveries]

theorem attempts_of_lt (h : ∀ r, s.recoveries = some r → r.1 < s.position) : s.attempts = 1 := by
  rw [attempts]
  cases hRecoveries : s.recoveries with
  | none => rfl
  | some r =>
    obtain ⟨position, count⟩ := r
    have hLt := h _ hRecoveries
    dsimp only at hLt ⊢
    rw [if_neg (by omega)]

theorem attempts_of_eq {count : Nat} (h : s.recoveries = some (s.position, count)) : s.attempts = count + 1 := by
  rw [attempts, h]
  exact if_pos rfl

/-- What is left while a lookahead is held: an inserted one pays for the step that drops it. -/
theorem stepsLeft_eq (size : Nat) (hPending : s.pending = none) :
    s.stepsLeft size = 8 * (size - s.position) + 2 * (maxRecoveries + 1 - s.attempts) + (if s.wrapped then 0 else 1) := by
  rw [stepsLeft, hPending]
  rfl

/-- Moving on pays for the step and for the recoveries to come. -/
theorem pays_advance (hPending : t.pending = none) (hDeferred : ∀ d, t.deferred = some d → d.isMissing = false)
    (hRecoveries : ∀ r, t.recoveries = some r → r.1 ≤ s.position) (hLt : s.position < t.position) (hLe : t.position ≤ size)
    (hWrapped : t.wrapped = s.wrapped) (hLeft : 8 * (size - s.position) + (if s.wrapped then 0 else 1) ≤ left) :
    PaysAfter size left none (.running t) := by
  refine ⟨⟨fun r hr => Nat.le_trans (hRecoveries r hr) (Nat.le_of_lt hLt), hDeferred⟩, ?_⟩
  rw [stepsLeft_eq size hPending, attempts_of_lt fun r hr => Nat.lt_of_le_of_lt (hRecoveries r hr) hLt, hWrapped]
  simp only [maxRecoveries, Option.isSome_none, Bool.false_eq_true, if_false]
  omega

theorem PaysAfter.mono {more : Nat} {id : Option ProductionId} {p : Progress σ} (h : PaysAfter size left id p)
    (hLeft : left ≤ more) : PaysAfter size more id p := by
  cases p with
  | running t => exact ⟨h.1, Nat.le_trans h.2 hLeft⟩
  | finished => exact h

theorem size_pos_of_fits (hNone : env.language.scanner = none) (hShort : bytes.length < 2 ^ 32)
    (hFits : la.Fits env bytes room s.position) (hMissing : la.isMissing = false) (hEof : la.symbol ≠ .eof) :
    0 < la.size := by
  cases la with
  | token t => exact hFits.2 hNone hShort hEof
  | reused subtree => exact hFits.2.2.1
  | missing symbol => cases hMissing

/-- A held lookahead takes what was set aside for it along. -/
theorem Takes.stepsLeft_le (size : Nat) (hPaced : s.Paced) {id : Option ProductionId} (h : Takes env s (some la) id t) :
    t.Paced ∧ t.stepsLeft size + (if la.isMissing then 1 else 0) ≤ s.stepsLeft size := by
  cases h with
  | pending hPending =>
    refine ⟨⟨hPaced.recoveries, hPaced.deferred⟩, ?_⟩
    rw [stepsLeft_eq size rfl, stepsLeft, hPending]
    change 8 * (size - s.position) + 2 * (maxRecoveries + 1 - s.attempts) + (if s.wrapped then 0 else 1) + _ ≤ _
    rw [Option.any_some]
    omega
  | deferred hPending hDeferred =>
    refine ⟨⟨hPaced.recoveries, by simp⟩, ?_⟩
    rw [hPaced.deferred la hDeferred]
    exact Nat.le_refl _
  | reused => exact ⟨⟨hPaced.recoveries, hPaced.deferred⟩, Nat.le_refl _⟩
  | lexed => exact ⟨⟨hPaced.recoveries, hPaced.deferred⟩, Nat.le_refl _⟩

/-- Nothing but the stack and what is pending changes. -/
theorem pays_stay (hPaced : s.Paced) {id : Option ProductionId} (hPosition : t.position = s.position)
    (hRecoveries : t.recoveries = s.recoveries) (hDeferred : t.deferred = s.deferred) (hWrapped : t.wrapped = s.wrapped)
    (hLeft : 8 * (size - s.position) + 2 * (maxRecoveries + 1 - s.attempts)
      + (if t.pending.any Lookahead.isMissing then 1 else 0) + (if s.wrapped then 0 else 1)
      + (if id.isSome then 0 else 1) ≤ left) : PaysAfter size left id (.running t) := by
  refine ⟨⟨fun r hr => ?_, fun d hd => hPaced.deferred d (hDeferred ▸ hd)⟩, ?_⟩
  · rw [hPosition]
    exact hPaced.recoveries r (hRecoveries ▸ hr)
  · rw [stepsLeft, attempts_congr hPosition hRecoveries, hPosition, hWrapped]
    exact hLeft

theorem pays_recover (hPosition : t.position = s.position) (hRecoveries : t.recoveries = some (s.position, s.attempts))
    (hDeferred : ∀ d, t.deferred = some d → d.isMissing = false)
    (hLeft : 8 * (size - s.position) + 2 * (maxRecoveries + 1 - (s.attempts + 1))
      + (if t.pending.any Lookahead.isMissing then 1 else 0) + (if t.wrapped then 0 else 1) + 1 ≤ left) :
    PaysAfter size left none (.running t) := by
  have hAttempts : t.attempts = s.attempts + 1 := attempts_of_eq (by rw [hRecoveries, hPosition])
  refine ⟨⟨fun r hr => ?_, hDeferred⟩, ?_⟩
  · rw [hRecoveries] at hr
    rw [← Option.some.inj hr, hPosition]
  · rw [stepsLeft, hAttempts, hPosition]
    exact hLeft

theorem recoveries_reduce (env : SessionEnv σ) (s : Session σ) (id : ProductionId) (extent : Nat) :
    (s.reduce env id extent).recoveries = s.recoveries ∧ (s.reduce env id extent).deferred = s.deferred ∧
      (s.reduce env id extent).wrapped = s.wrapped ∧ (s.reduce env id extent).pending = s.pending := by
  obtain ⟨_, _, _, _, _, _, hReduce⟩ := reduce_eq env s id extent
  rw [hReduce]
  exact ⟨rfl, rfl, rfl, rfl⟩

/-- A lookahead that goes onto the stack moves the position on, or it was inserted. -/
theorem Holds.pays_push (hNone : env.language.scanner = none) (hShort : bytes.length < 2 ^ 32)
    (h : Holds env Ok bytes room s la) (hPaced : s.Paced) {q : StateId} {x : Subtree} {nextId : NodeId}
    (hSize : x.size = la.size) (hEof : la.symbol ≠ .eof) :
    PaysAfter (max bytes.length room) (s.stepsLeft (max bytes.length room) + if la.isMissing then 1 else 0) none
      (.running { s with stack := s.stack.push q x, nextId }) := by
  have hEnd := h.fits.le h.position
  have hLeft := stepsLeft_eq (max bytes.length room) h.pending
  cases hMissing : la.isMissing with
  | true =>
    have hSame : s.position + x.size = s.position := by
      rw [hSize, Lookahead.size_of_isMissing hMissing, Nat.add_zero]
    refine pays_stay (s := s) hPaced hSame rfl rfl rfl ?_
    rw [hLeft, h.pending]
    exact Nat.le_refl _
  | false =>
    have hPos := size_pos_of_fits hNone hShort h.fits hMissing hEof
    have hMoved : s.position < s.position + x.size := by omega
    exact pays_advance (s := s) h.pending hPaced.deferred hPaced.recoveries hMoved (by rwa [← hSize] at hEnd) rfl (by omega)

/-- Whatever happens to a lookahead is paid for. -/
theorem Holds.pays (hBuilt : env.language.BuiltFrom g) (hNone : env.language.scanner = none)
    (hShort : bytes.length < 2 ^ 32) (h : Holds env Ok bytes room s la) (hPaced : s.Paced) {id : Option ProductionId}
    {p : Progress σ} (hActs : Acts env Ok s la id p) :
    PaysAfter (max bytes.length room) (s.stepsLeft (max bytes.length room) + if la.isMissing then 1 else 0) id p := by
  have hEnd := h.fits.le h.position
  have hLeft := stepsLeft_eq (max bytes.length room) h.pending
  have hAttempts := s.attempts_pos
  cases hActs with
  | @interior subtree hLeaf =>
    have hPos := h.fits.2.2.1
    refine pays_advance (s := s) h.pending hPaced.deferred hPaced.recoveries ?_ hEnd rfl (by omega)
    change s.position < s.position + subtree.size
    omega
  | @shift _ next leaf nextId hInterior hAction hLeaves =>
    obtain ⟨_, hShift⟩ := actionOn_eq_some hAction
    have hEof := hBuilt.ne_eof_of_shift hShift
    obtain ⟨_, hSize, _, _⟩ := hLeaves.grown h.fits h.ids hEof (hBuilt.isTerminal_of_action hShift)
    exact h.pays_push hNone hShort hPaced hSize hEof
  | @reduce _ id hInterior hAction =>
    obtain ⟨hGround, hSame⟩ := h.toGrounded.reduce hBuilt id (la.extent s.position)
    obtain ⟨hRecoveries, hDeferred, hWrapped, _⟩ := recoveries_reduce env s id (la.extent s.position)
    refine pays_stay hPaced hSame hRecoveries hDeferred hWrapped ?_
    simp only [Option.any_some, Option.isSome_some, if_true]
    omega
  | accept hInterior hAction => exact rfl
  | @extra _ leaf nextId hInterior hAction hStands hExtra =>
    have hEof := hStands.ne_eof_of_isExtra hBuilt h.fits hExtra
    obtain ⟨_, hSize, _, _⟩ := hStands.grown h.fits h.ids hEof
    exact h.pays_push hNone hShort hPaced hSize hEof
  | dropped =>
    refine pays_stay (s := s) hPaced rfl rfl rfl rfl ?_
    rw [hLeft, h.pending]
    exact Nat.le_refl _
  | @insert _ r symbol hInterior hMissing hAsks hAttempts hToken =>
    cases hAsks with
    | mk _ =>
      refine pays_recover (s := s) rfl rfl (fun d hd => Option.some.inj hd ▸ hMissing) ?_
      simp only [Option.any_some, Lookahead.isMissing, if_true]
      omega
  | @pop _ r depth hInterior hMissing hAsks hAttempts hPos hDepth =>
    have hAsked := h.asks hAsks
    obtain ⟨_, hSame, hDeferred⟩ := hAsked.toGrounded.pop depth
    obtain ⟨_, _, _, _, hPop⟩ := popStack_eq env r depth
    have hKept : (r.popStack env depth).recoveries = r.recoveries ∧ (r.popStack env depth).wrapped = r.wrapped := by
      rw [hPop]
      exact ⟨rfl, rfl⟩
    cases hAsks with
    | mk _ =>
      refine pays_recover (s := s) hSame hKept.1 (fun d hd => hPaced.deferred d (hDeferred ▸ hd)) ?_
      simp only [Option.any_some, hMissing, Bool.false_eq_true, if_false, hKept.2]
      omega
  | @skipError t r hAsks hError =>
    cases hAsks with
    | mk _ =>
      have hPos : 0 < t.size := h.fits.2 hNone hShort (by rw [h.fits.1.error hError]; decide)
      refine pays_advance (s := s) h.pending hPaced.deferred (fun r hr => ?_) ?_ hEnd rfl (by omega)
      · rw [← Option.some.inj hr]
      · exact Nat.lt_add_of_pos_right hPos
  | @skip _ leaf nextId r hInterior hMissing hAsks hEof hStands =>
    have hSymbol := h.ne_eof hMissing hEof
    have hGrown := hStands.grown h.fits h.ids hSymbol
    have hPos := size_pos_of_fits hNone hShort h.fits hMissing hSymbol
    have hAsked := h.asks hAsks
    cases hAsks with
    | mk _ =>
      obtain ⟨hCovers, hMoved⟩ := hAsked.skipLeaf hMissing hGrown
      refine pays_advance (s := s) h.pending hPaced.deferred (fun r hr => ?_) ?_ ?_ rfl (by omega)
      · rw [← Option.some.inj hr]
      · rw [hMoved]
        exact Nat.lt_add_of_pos_right hPos
      · exact hCovers.position
  | @wrap t r hAsks hEof hWrapped =>
    have hPlaced : s.position = _ := h.stack.placed.position_eq
    cases hAsks with
    | mk _ =>
      refine pays_recover (s := s) ?_ rfl hPaced.deferred ?_
      · rw [hPlaced]
        exact Nat.zero_add _
      · change _ + (if s.pending.any Lookahead.isMissing then 1 else 0) + 0 + 1 ≤ _
        rw [hLeft, hWrapped, h.pending]
        simp only [Option.any_none, Bool.false_eq_true, if_false]
        omega
  | @giveUp t r hAsks hEof => exact rfl

section Runs

variable (hServes : env.host.Serves Ok bytes) (hBuilt : env.language.BuiltFrom g) (hNone : env.language.scanner = none)
  (hShort : bytes.length < 2 ^ 32)
include hServes hBuilt hNone hShort

/-- Every step but a reduction is paid for by what is left. -/
theorem Covers.pays (h : Covers env Ok bytes room s) (hPaced : s.Paced) :
    PaysAfter (max bytes.length room) (s.stepsLeft (max bytes.length room)) (s.reduction? env) (s.next env) := by
  have hCounted : Paced { s with steps := s.steps + 1 } := ⟨hPaced.recoveries, hPaced.deferred⟩
  have hSteps := steps_next (hServes.keeps hBuilt) s
  generalize s.reduction? env = id at hSteps ⊢
  generalize s.next env = p at hSteps ⊢
  cases hSteps with
  | stopped => exact rfl
  | @reduced production t hTakes =>
    cases hTakes with
    | @reduced c c' _ extent hPending hDeferred hReuse hFinds =>
      have hGround : Grounded env Ok bytes room { s with steps := s.steps + 1, reuse := some c' } := by
        refine ⟨h.input, h.ids, h.stack, h.position, h.skip, fun d hd => ?_⟩
        rw [← Option.some.inj hd]
        exact (hFinds.ahead (fun _ _ => Old.below) (h.reuse c hReuse)).1
      obtain ⟨_, hSame⟩ := hGround.reduce hBuilt production extent
      obtain ⟨hRecoveries, hDeferred, hWrapped, hKept⟩ := recoveries_reduce env
        { s with steps := s.steps + 1, reuse := some c' } production extent
      refine pays_stay (s := s) hPaced hSame hRecoveries hDeferred hWrapped ?_
      rw [hKept]
      exact Nat.le_refl _
  | acted hTakes hActs =>
    obtain ⟨hTaken, hLe⟩ := hTakes.stepsLeft_le (max bytes.length room) hCounted
    have hPays := ((h.counted.holds hServes hBuilt hTakes).1 _ rfl).pays hBuilt hNone hShort hTaken hActs
    exact hPays.mono hLe

theorem Covers.nonReductions_le (h : Covers env Ok bytes room s) (hPaced : s.Paced) (steps : Nat) :
    s.nonReductions env steps ≤ s.stepsLeft (max bytes.length room) + 1 := by
  induction steps generalizing s with
  | zero => exact Nat.zero_le _
  | succ steps ih =>
    have hPays := h.pays hServes hBuilt hNone hShort hPaced
    have hNext := h.next hServes hBuilt
    rw [nonReductions]
    cases hProgress : s.next env with
    | running t =>
      rw [hProgress] at hPays hNext
      have hRest := ih hNext hPays.1
      have hPaid := hPays.2
      dsimp only
      omega
    | finished root status t =>
      dsimp only
      split <;> omega

end Runs

end Session
end Reparse
