import Reparse.Proofs.Lex.Automaton
import Reparse.Proofs.Lex.Source
/-!
# Longest matches by paths

`longestMatch` runs the automata of some tokens side by side. It reads characters as long as some way
from a first node can consume another one, and of the accepting nodes that ways over at least one
character lead to it answers with the one furthest on; of those equally far, with the one that ranks
first. This holds as long as the generation of the marks does not wrap, and `longestRenewals` counts how
often the marks are renewed.
-/
namespace Reparse

/-! ## Stretches of text -/

/-- The characters of `text` stand in `bytes` from the first offset up to the second. -/
inductive Spans (bytes : List UInt8) : Nat → List Char → Nat → Prop
  | nil (pos : Nat) : Spans bytes pos [] pos
  | cons {pos stop : Nat} {d : Decoded} {text : List Char} :
    Source.decodeAt bytes pos = some d → Spans bytes (pos + d.width) text stop →
      Spans bytes pos (d.char :: text) stop

namespace Spans

variable {bytes : List UInt8} {a b c : Nat} {front back text : List Char}

theorem le (h : Spans bytes a text b) : a ≤ b := by
  induction h with
  | nil => exact Nat.le_refl _
  | cons _ _ ih => omega

theorem lt (h : Spans bytes a text b) (hText : text ≠ []) : a < b := by
  cases h with
  | nil => exact absurd rfl hText
  | @cons _ _ d _ _ hRest =>
    have := hRest.le
    have := d.width_pos
    omega

theorem le_length (h : Spans bytes a text b) (ha : a ≤ bytes.length) : b ≤ bytes.length := by
  induction h with
  | nil => exact ha
  | cons hd _ ih => exact ih (Source.width_le_of_decodeAt hd)

theorem append (hFront : Spans bytes a front b) (hBack : Spans bytes b back c) :
    Spans bytes a (front ++ back) c := by
  induction hFront with
  | nil => exact hBack
  | cons hd _ ih => exact .cons hd (ih hBack)

theorem snoc {d : Decoded} (h : Spans bytes a text b) (hd : Source.decodeAt bytes b = some d) :
    Spans bytes a (text ++ [d.char]) (b + d.width) :=
  h.append (.cons hd (.nil _))

theorem split (h : Spans bytes a (front ++ back) c) : ∃ b, Spans bytes a front b ∧ Spans bytes b back c := by
  induction front generalizing a with
  | nil => exact ⟨a, .nil a, h⟩
  | cons x front ih =>
    cases h with
    | cons hd hRest =>
      obtain ⟨b, hFront, hBack⟩ := ih hRest
      exact ⟨b, .cons hd hFront, hBack⟩

/-- Of two stretches from one offset the one begins with the other. -/
theorem comparable {text' : List Char} {b' : Nat} (h : Spans bytes a text b) (h' : Spans bytes a text' b') :
    (∃ more, text' = text ++ more ∧ Spans bytes b more b') ∨ ∃ more, text = text' ++ more ∧ Spans bytes b' more b := by
  induction h generalizing text' with
  | nil => exact .inl ⟨text', rfl, h'⟩
  | cons hd hRest ih =>
    cases h' with
    | nil => exact .inr ⟨_, rfl, .cons hd hRest⟩
    | cons hd' hRest' =>
      obtain rfl := Option.some.inj (hd.symm.trans hd')
      rcases ih hRest' with ⟨more, rfl, hMore⟩ | ⟨more, rfl, hMore⟩
      · exact .inl ⟨more, rfl, hMore⟩
      · exact .inr ⟨more, rfl, hMore⟩

theorem text_unique {text' : List Char} (h : Spans bytes a text b) (h' : Spans bytes a text' b) : text = text' := by
  rcases h.comparable h' with ⟨more, rfl, hMore⟩ | ⟨more, rfl, hMore⟩
  all_goals
    have : more = [] := by
      by_contra hNot
      exact absurd (hMore.lt hNot) (Nat.lt_irrefl _)
    simp [this]

theorem stop_unique {b' : Nat} (h : Spans bytes a text b) (h' : Spans bytes a text b') : b = b' := by
  rcases h.comparable h' with ⟨more, hEq, hMore⟩ | ⟨more, hEq, hMore⟩
  all_goals
    obtain rfl : more = [] := by simpa using hEq
    cases hMore
    rfl

end Spans

/-! ## Ranks -/

namespace Table

variable {t : Table}

theorem outranks_iff {a b : Symbol} : t.outranks a b = true ↔
    ((t.lexOf a).literal = true ∧ (t.lexOf b).literal = false) ∨
      ((t.lexOf a).literal = (t.lexOf b).literal ∧ a.id < b.id) := by
  rw [outranks]
  cases (t.lexOf a).literal <;> cases (t.lexOf b).literal <;> simp

/-- The first match, an end and a symbol, is the second one or is preferred to it. -/
def Beats (t : Table) (a b : Nat × Symbol) : Prop :=
  b.1 < a.1 ∨ (b.1 = a.1 ∧ (b.2 = a.2 ∨ t.outranks a.2 b.2 = true))

theorem Beats.refl (a : Nat × Symbol) : t.Beats a a := .inr ⟨rfl, .inl rfl⟩

theorem outranks_trans {a b c : Symbol} (hab : t.outranks a b = true) (hbc : t.outranks b c = true) :
    t.outranks a c = true := by
  rw [outranks_iff] at *
  simp only [UInt16.lt_iff_toNat_lt] at *
  grind

theorem outranks_total {a b : Symbol} (hab : ¬t.outranks a b = true) : b = a ∨ t.outranks b a = true := by
  rw [outranks_iff] at *
  by_cases hEq : b = a
  · exact .inl hEq
  · have hId : a.index ≠ b.index := fun h => hEq (Symbol.index_inj.mp h).symm
    simp only [UInt16.lt_iff_toNat_lt, Symbol.index] at *
    grind

theorem Beats.trans {a b c : Nat × Symbol} (hab : t.Beats a b) (hbc : t.Beats b c) : t.Beats a c := by
  rcases hab with hab | ⟨hab, hab'⟩
  · rcases hbc with hbc | ⟨hbc, _⟩
    · exact .inl (by omega)
    · exact .inl (by omega)
  · rcases hbc with hbc | ⟨hbc, hbc'⟩
    · exact .inl (by omega)
    · refine .inr ⟨by omega, ?_⟩
      rcases hab' with hab' | hab'
      · rwa [hab'] at hbc'
      · rcases hbc' with hbc' | hbc'
        · exact .inr (hbc' ▸ hab')
        · exact .inr (outranks_trans hab' hbc')

theorem Beats.antisymm {a b : Nat × Symbol} (hab : t.Beats a b) (hba : t.Beats b a) : a = b := by
  rcases hab with hab | ⟨hStop, hab⟩
  · rcases hba with hba | ⟨hba, _⟩ <;> omega
  · refine Prod.ext hStop.symm ?_
    rcases hab with hab | hab
    · exact hab.symm
    · rcases hba with hba | ⟨_, hba | hba⟩
      · omega
      · exact hba
      · rw [outranks_iff] at hab hba
        simp only [UInt16.lt_iff_toNat_lt] at hab hba
        grind

/-- The best of the matches with a property; none if there are none. -/
def BestOf (t : Table) (P : Nat × Symbol → Prop) : Option (Nat × Symbol) → Prop
  | none => ∀ c, ¬P c
  | some best => P best ∧ ∀ c, P c → t.Beats best c

theorem BestOf.congr {P Q : Nat × Symbol → Prop} {best : Option (Nat × Symbol)} (h : t.BestOf P best)
    (hPQ : ∀ c, P c ↔ Q c) : t.BestOf Q best := by
  obtain rfl : P = Q := funext fun c => propext (hPQ c)
  exact h

theorem BestOf.unique {P : Nat × Symbol → Prop} {a b : Option (Nat × Symbol)} (ha : t.BestOf P a)
    (hb : t.BestOf P b) : a = b := by
  cases a with
  | none =>
    cases b with
    | none => rfl
    | some b => exact absurd hb.1 (ha b)
  | some a =>
    cases b with
    | none => exact absurd ha.1 (hb a)
    | some b => rw [(ha.2 b hb.1).antisymm (hb.2 a ha.1)]

theorem BestOf.better {P : Nat × Symbol → Prop} {best : Option (Nat × Symbol)} (h : t.BestOf P best) (pos : Nat)
    (s : Symbol) : t.BestOf (fun c => P c ∨ c = (pos, s)) (t.better pos best s) := by
  cases best with
  | none =>
    refine ⟨.inr rfl, ?_⟩
    rintro c (hc | rfl)
    · exact absurd hc (h c)
    · exact .refl _
  | some best =>
    obtain ⟨stop, incumbent⟩ := best
    rw [Table.better]
    split
    next hBetter =>
      refine ⟨.inr rfl, ?_⟩
      rintro c (hc | rfl)
      · refine Beats.trans ?_ (h.2 c hc)
        rcases hBetter with hLt | ⟨hEq, hRank⟩
        · exact .inl hLt
        · exact .inr ⟨hEq.symm, .inr hRank⟩
      · exact .refl _
    next hWorse =>
      refine ⟨.inl h.1, ?_⟩
      rintro c (hc | rfl)
      · exact h.2 c hc
      · rw [not_or] at hWorse
        by_cases hEq : pos = stop
        · exact .inr ⟨hEq, (outranks_total fun hRank => hWorse.2 ⟨hEq, hRank⟩).imp_left Eq.symm⟩
        · exact .inl (by change pos < stop; omega)

theorem BestOf.foldl_better {P : Nat × Symbol → Prop} {best : Option (Nat × Symbol)} (h : t.BestOf P best)
    (pos : Nat) (symbols : List Symbol) :
    t.BestOf (fun c => P c ∨ (c.1 = pos ∧ c.2 ∈ symbols)) (symbols.foldl (t.better pos) best) := by
  induction symbols generalizing P best with
  | nil => exact h.congr (by simp)
  | cons s rest ih =>
    refine (ih (h.better pos s)).congr fun c => ?_
    obtain ⟨stop, s'⟩ := c
    simp only [List.mem_cons, Prod.mk.injEq]
    constructor
    · rintro ((hc | ⟨rfl, rfl⟩) | ⟨rfl, hMem⟩)
      · exact .inl hc
      · exact .inr ⟨rfl, .inl rfl⟩
      · exact .inr ⟨rfl, .inr hMem⟩
    · rintro (hc | ⟨rfl, rfl | hMem⟩)
      · exact .inl (.inl hc)
      · exact .inl (.inr ⟨rfl, rfl⟩)
      · exact .inr ⟨rfl, hMem⟩

/-! ## Matches -/

/-- A way from the first node of one of `tokens` leads over `text` to `n`. -/
def Reaches (t : Table) (tokens : List Symbol) (text : List Char) (n : UInt32) : Prop :=
  ∃ token ∈ tokens, ∃ first, (t.lexOf token).start = some first ∧ t.lexNodes.Leads first text n

/-- After `text` another character may be consumed. -/
def CanRead (t : Table) (tokens : List Symbol) (text : List Char) : Prop :=
  ∃ n, t.Reaches tokens text n ∧ t.lexNodes.isConsuming n = true

/-- A way over at least one character from `pos` on leads to a node that accepts a symbol: the end of
those characters, and the symbol. -/
def Match (t : Table) (tokens : List Symbol) (bytes : List UInt8) (pos : Nat) (c : Nat × Symbol) : Prop :=
  ∃ text, text ≠ [] ∧ Spans bytes pos text c.1 ∧ ∃ n, t.Reaches tokens text n ∧ t.lexNodes.accepted? n = some c.2

/-- The characters that are read from `pos` on, up to `stop`. -/
structure Reads (t : Table) (tokens : List Symbol) (bytes : List UInt8) (pos : Nat) (text : List Char) (stop : Nat) :
    Prop where
  spans : Spans bytes pos text stop
  canRead : ∀ front x back, text = front ++ x :: back → t.CanRead tokens front
  ended : t.CanRead tokens text → Source.decodeAt bytes stop = none

variable {tokens : List Symbol} {bytes : List UInt8} {pos : Nat}

theorem Reaches.canRead {front back : List Char} {x : Char} {n : UInt32} (h : t.Reaches tokens (front ++ x :: back) n) :
    t.CanRead tokens front := by
  obtain ⟨token, hToken, first, hFirst, hLeads⟩ := h
  obtain ⟨b, cls, next, hFront, hNode, _⟩ := hLeads.at_char
  exact ⟨b, ⟨token, hToken, first, hFirst, hFront⟩, LexArena.isConsuming_iff.mpr ⟨cls, next, hNode⟩⟩

theorem Reaches.snoc_iff {text : List Char} {x : Char} {n : UInt32} :
    t.Reaches tokens (text ++ [x]) n ↔ ∃ b next, t.Reaches tokens text b ∧ t.lexNodes.after? x b = some next ∧
      t.lexNodes.Leads next [] n := by
  constructor
  · rintro ⟨token, hToken, first, hFirst, hLeads⟩
    obtain ⟨b, cls, next, hFront, hNode, hx, hRest⟩ := hLeads.at_char
    exact ⟨b, next, ⟨token, hToken, first, hFirst, hFront⟩, LexArena.after?_eq_some.mpr ⟨cls, hNode, hx⟩, hRest⟩
  · rintro ⟨b, next, ⟨token, hToken, first, hFirst, hFront⟩, hAfter, hRest⟩
    obtain ⟨cls, hNode, hx⟩ := LexArena.after?_eq_some.mp hAfter
    exact ⟨token, hToken, first, hFirst, hFront.append (.chars hNode hx hRest)⟩

theorem Reads.match_le {text : List Char} {stop : Nat} (h : t.Reads tokens bytes pos text stop)
    {c : Nat × Symbol} (hc : t.Match tokens bytes pos c) : c.1 ≤ stop := by
  obtain ⟨text', _, hSpans, n, hReaches, _⟩ := hc
  rcases h.spans.comparable hSpans with ⟨more, rfl, hMore⟩ | ⟨more, rfl, hMore⟩
  · cases more with
    | nil => cases hMore; exact Nat.le_refl _
    | cons x more =>
      cases hMore with
      | cons hd _ =>
        rw [h.ended hReaches.canRead] at hd
        cases hd
  · exact hMore.le

theorem Reads.unique {text text' : List Char} {stop stop' : Nat} (h : t.Reads tokens bytes pos text stop)
    (h' : t.Reads tokens bytes pos text' stop') : text = text' ∧ stop = stop' := by
  have hText : text = text' := by
    rcases h.spans.comparable h'.spans with ⟨more, rfl, hMore⟩ | ⟨more, rfl, hMore⟩
    all_goals
      cases hMore with
      | nil => simp
      | cons hd _ =>
        first
          | rw [h.ended (h'.canRead _ _ _ rfl)] at hd; cases hd
          | rw [h'.ended (h.canRead _ _ _ rfl)] at hd; cases hd
  subst hText
  exact ⟨rfl, h.spans.stop_unique h'.spans⟩

/-- With more tokens no less is read. -/
theorem Reads.stop_le {tokens' : List Symbol} {text text' : List Char} {stop stop' : Nat}
    (h : t.Reads tokens bytes pos text stop) (h' : t.Reads tokens' bytes pos text' stop')
    (hMore : ∀ front, t.CanRead tokens front → t.CanRead tokens' front) : stop ≤ stop' := by
  rcases h.spans.comparable h'.spans with ⟨more, rfl, hSpans⟩ | ⟨more, rfl, hSpans⟩
  · exact hSpans.le
  · cases hSpans with
    | nil => exact Nat.le_refl _
    | cons hd _ =>
      rw [h'.ended (hMore _ (h.canRead _ _ _ rfl))] at hd
      cases hd

end Table

/-! ## Runs -/

variable {σ : Type}

/-- How often a run of the automata renews the marks. -/
def matchRenewals (t : Table) (src : Source σ) (pos : Nat) (set : Array UInt32) (s : LexState σ) : Nat :=
  if set.any t.lexNodes.isConsuming then
    match _h : src.charAt pos s.input with
    | (none, _) => 0
    | (some d, input) =>
      let targets := set.toList.filterMap (t.lexNodes.after? d.char)
      let (set, marks) := t.lexNodes.addNodes targets s.marks.renew #[]
      1 + matchRenewals t src (pos + d.width) set ⟨marks, input⟩
  else 0
termination_by src.size - pos
decreasing_by
  have hPos := Source.lt_size_of_charAt (congrArg Prod.fst _h)
  have := d.width_pos
  omega

/-- How often the search for a longest match renews the marks. -/
def longestRenewals (t : Table) (src : Source σ) (pos : Nat) (tokens : List Symbol) (s : LexState σ) : Nat :=
  let starts := tokens.filterMap fun token => (t.lexOf token).start
  let (set, marks) := t.lexNodes.addNodes starts s.marks.renew #[]
  1 + matchRenewals t src pos set { s with marks }

/-- The lexer may go on: its marks are fit for a collection and its input is. -/
structure LexState.Ready (t : Table) (Ok : σ → Prop) (s : LexState σ) : Prop where
  marks : t.lexNodes.Ready s.marks
  input : Ok s.input

/-- From one state to another the marks were renewed so many times, and the generation did not wrap. -/
structure LexState.Renewed (t : Table) (Ok : σ → Prop) (before after : LexState σ) (renewals : Nat) : Prop
    extends after.Ready t Ok where
  generation : after.marks.generation.toNat = before.marks.generation.toNat + renewals

section Equations

variable (t : Table) (src : Source σ) {pos furthest : Nat} {best : Option (Nat × Symbol)} {set : Array UInt32}
  {s : LexState σ} {input : σ}

theorem matchFrom_done (h : set.any t.lexNodes.isConsuming = false) :
    matchFrom t src pos furthest best set s = ((best, furthest), s) ∧ matchRenewals t src pos set s = 0 := by
  rw [matchFrom, matchRenewals, h]
  exact ⟨rfl, rfl⟩

theorem matchFrom_end (h : set.any t.lexNodes.isConsuming = true) (hChar : src.charAt pos s.input = (none, input)) :
    matchFrom t src pos furthest best set s = ((best, furthest), { s with input }) ∧
      matchRenewals t src pos set s = 0 := by
  constructor
  · rw [matchFrom, if_pos h]
    split
    next hNone =>
      rw [hChar] at hNone
      obtain rfl := (Prod.mk.inj hNone).2
      rfl
    next hSome => rw [hChar] at hSome; cases hSome
  · rw [matchRenewals, if_pos h]
    split
    next => rfl
    next hSome => rw [hChar] at hSome; cases hSome

/-- The set after a character, and the best match so far. -/
theorem matchFrom_step {d : Decoded} (h : set.any t.lexNodes.isConsuming = true)
    (hChar : src.charAt pos s.input = (some d, input)) {set' : Array UInt32} {marks : LexMarks}
    (hNodes : t.lexNodes.addNodes (set.toList.filterMap (t.lexNodes.after? d.char)) s.marks.renew #[] =
      (set', marks)) :
    matchFrom t src pos furthest best set s =
        matchFrom t src (pos + d.width) (max furthest (pos + d.width))
          ((set'.toList.filterMap t.lexNodes.accepted?).foldl (t.better (pos + d.width)) best) set' ⟨marks, input⟩ ∧
      matchRenewals t src pos set s = 1 + matchRenewals t src (pos + d.width) set' ⟨marks, input⟩ := by
  constructor
  · conv_lhs => rw [matchFrom, if_pos h]
    split
    next hNone => rw [hChar] at hNone; cases hNone
    next hSome =>
      rw [hChar] at hSome
      obtain ⟨hd, rfl⟩ := Prod.mk.inj hSome
      obtain rfl := Option.some.inj hd
      simp only [hNodes]
      split
      next hEmpty =>
        obtain rfl := Array.isEmpty_iff.mp hEmpty
        rw [(matchFrom_done t src (by simp)).1]
      next => rfl
  · conv_lhs => rw [matchRenewals, if_pos h]
    split
    next hNone => rw [hChar] at hNone; cases hNone
    next hSome =>
      rw [hChar] at hSome
      obtain ⟨hd, rfl⟩ := Prod.mk.inj hSome
      obtain rfl := Option.some.inj hd
      simp only [hNodes]

theorem longestMatch_step {tokens : List Symbol} {set' : Array UInt32} {marks : LexMarks}
    (hNodes : t.lexNodes.addNodes (tokens.filterMap fun token => (t.lexOf token).start) s.marks.renew #[] =
      (set', marks)) :
    longestMatch t src pos tokens s =
        ((matchFrom t src pos pos none set' ⟨marks, s.input⟩).1.1.map fun c =>
          ⟨c.2, c.1, (matchFrom t src pos pos none set' ⟨marks, s.input⟩).1.2⟩,
          (matchFrom t src pos pos none set' ⟨marks, s.input⟩).2) ∧
      longestRenewals t src pos tokens s = 1 + matchRenewals t src pos set' ⟨marks, s.input⟩ := by
  rw [longestMatch, longestRenewals]
  simp only [hNodes, and_self]

end Equations

section Run

variable {t : Table} {src : Source σ} {Ok : σ → Prop} {bytes : List UInt8} {tokens : List Symbol} {start : Nat}

/-- A set holds the nodes that are reached over a text. -/
def Holds (t : Table) (tokens : List Symbol) (text : List Char) (set : Array UInt32) : Prop :=
  ∀ n, n ∈ set ↔ t.lexNodes.IsStop n ∧ t.Reaches tokens text n

theorem Holds.consuming_iff {text : List Char} {set : Array UInt32} (h : Holds t tokens text set) :
    set.any t.lexNodes.isConsuming = true ↔ t.CanRead tokens text := by
  rw [Array.any_eq_true']
  constructor
  · rintro ⟨n, hn, hNode⟩
    exact ⟨n, ((h n).mp hn).2, hNode⟩
  · rintro ⟨n, hn, hNode⟩
    exact ⟨n, (h n).mpr ⟨LexArena.isStop_of_consuming hNode, hn⟩, hNode⟩

theorem holds_first (tokens : List Symbol) {m : LexMarks} (hReady : t.lexNodes.Ready m) (hRoom : m.generation.toNat + 1 < 2 ^ 32) :
    Holds t tokens [] (t.lexNodes.addNodes (tokens.filterMap fun token => (t.lexOf token).start) m.renew #[]).1 := by
  intro n
  rw [(LexArena.mem_addNodes hReady hRoom).1]
  refine and_congr_right fun _ => ?_
  constructor
  · rintro ⟨first, hFirst, hLeads⟩
    obtain ⟨token, hToken, hStart⟩ := List.mem_filterMap.mp hFirst
    exact ⟨token, hToken, first, hStart, hLeads⟩
  · rintro ⟨token, hToken, first, hStart, hLeads⟩
    exact ⟨first, List.mem_filterMap.mpr ⟨token, hToken, hStart⟩, hLeads⟩

theorem Holds.step {text : List Char} {set : Array UInt32} (h : Holds t tokens text set) (x : Char) {m : LexMarks}
    (hReady : t.lexNodes.Ready m) (hRoom : m.generation.toNat + 1 < 2 ^ 32) :
    Holds t tokens (text ++ [x])
      (t.lexNodes.addNodes (set.toList.filterMap (t.lexNodes.after? x)) m.renew #[]).1 := by
  intro n
  rw [(LexArena.mem_addNodes hReady hRoom).1, Table.Reaches.snoc_iff]
  refine and_congr_right fun _ => ?_
  constructor
  · rintro ⟨next, hNext, hLeads⟩
    obtain ⟨b, hb, hAfter⟩ := List.mem_filterMap.mp hNext
    exact ⟨b, next, ((h b).mp (by simpa using hb)).2, hAfter, hLeads⟩
  · rintro ⟨b, next, hReaches, hAfter, hLeads⟩
    obtain ⟨cls, hNode, _⟩ := LexArena.after?_eq_some.mp hAfter
    have hStop := LexArena.isStop_of_consuming (LexArena.isConsuming_iff.mpr ⟨cls, next, hNode⟩)
    exact ⟨next, List.mem_filterMap.mpr ⟨b, by simpa using (h b).mpr ⟨hStop, hReaches⟩, hAfter⟩, hLeads⟩

/-- The matches up to the end of one more character. -/
theorem match_le_step {text : List Char} {pos : Nat} {d : Decoded} {set : Array UInt32}
    (hSpans : Spans bytes start text pos) (hd : Source.decodeAt bytes pos = some d)
    (hSet : Holds t tokens (text ++ [d.char]) set) (c : Nat × Symbol) :
    ((t.Match tokens bytes start c ∧ c.1 ≤ pos) ∨
        (c.1 = pos + d.width ∧ c.2 ∈ set.toList.filterMap t.lexNodes.accepted?)) ↔
      t.Match tokens bytes start c ∧ c.1 ≤ pos + d.width := by
  constructor
  · rintro (⟨hMatch, hLe⟩ | ⟨hStop, hMem⟩)
    · exact ⟨hMatch, by omega⟩
    · obtain ⟨n, hn, hAccepted⟩ := List.mem_filterMap.mp hMem
      refine ⟨⟨text ++ [d.char], by simp, hStop ▸ hSpans.snoc hd, n, ?_, hAccepted⟩, by omega⟩
      exact ((hSet n).mp (by simpa using hn)).2
  · rintro ⟨hMatch, hLe⟩
    by_cases hOld : c.1 ≤ pos
    · exact .inl ⟨hMatch, hOld⟩
    · -- No character boundary lies between the two ends.
      obtain ⟨text', hText', hSpans', n, hReaches, hAccepted⟩ := hMatch
      rcases hSpans.comparable hSpans' with ⟨more, rfl, hMore⟩ | ⟨more, rfl, hMore⟩
      · cases hMore with
        | nil => exact absurd (Nat.le_refl _) hOld
        | @cons _ _ d' more hd' hRest =>
          obtain rfl := Option.some.inj (hd.symm.trans hd')
          have hStop : c.1 = pos + d.width := Nat.le_antisymm hLe hRest.le
          obtain rfl : more = [] := by
            by_contra hNot
            have := hRest.lt hNot
            omega
          refine .inr ⟨hStop, List.mem_filterMap.mpr ⟨n, ?_, hAccepted⟩⟩
          simpa using (hSet n).mpr ⟨LexArena.isStop_of_accepted hAccepted, hReaches⟩
      · exact absurd hMore.le hOld

theorem matchFrom_eq (h : src.Serves Ok bytes) {pos : Nat} {best : Option (Nat × Symbol)}
    {set : Array UInt32} {s : LexState σ} {text : List Char} (hReady : s.Ready t Ok)
    (hSpans : Spans bytes start text pos)
    (hRead : ∀ front x back, text = front ++ x :: back → t.CanRead tokens front)
    (hSet : Holds t tokens text set)
    (hBest : t.BestOf (fun c => t.Match tokens bytes start c ∧ c.1 ≤ pos) best)
    (hRoom : s.marks.generation.toNat + matchRenewals t src pos set s < 2 ^ 32) :
    ∃ text' stop, t.Reads tokens bytes start text' stop ∧ (matchFrom t src pos pos best set s).1.2 = stop ∧
      t.BestOf (t.Match tokens bytes start) (matchFrom t src pos pos best set s).1.1 ∧
      LexState.Renewed t Ok s (matchFrom t src pos pos best set s).2 (matchRenewals t src pos set s) := by
  -- Once nothing more is read, the best match so far is the best of all.
  have hLast {s' : LexState σ} (hReady' : s'.Ready t Ok)
      (hGeneration : s'.marks.generation.toNat = s.marks.generation.toNat + matchRenewals t src pos set s)
      (hEnd : t.CanRead tokens text → Source.decodeAt bytes pos = none) :
      ∃ text' stop, t.Reads tokens bytes start text' stop ∧ pos = stop ∧
        t.BestOf (t.Match tokens bytes start) best ∧ LexState.Renewed t Ok s s' (matchRenewals t src pos set s) := by
    have hReads : t.Reads tokens bytes start text pos := ⟨hSpans, hRead, hEnd⟩
    exact ⟨text, pos, hReads, rfl, hBest.congr fun c => and_iff_left_of_imp hReads.match_le,
      ⟨hReady', hGeneration⟩⟩
  cases hAny : set.any t.lexNodes.isConsuming with
  | false =>
    obtain ⟨hRun, hRenewals⟩ := matchFrom_done t src (s := s) hAny
    rw [hRun]
    refine hLast hReady (by rw [hRenewals, Nat.add_zero]) fun hCan => ?_
    rw [hSet.consuming_iff.mpr hCan] at hAny
    cases hAny
  | true =>
    obtain ⟨hDecode, hOk⟩ := h.charAt_eq hReady.input
    match hChar : src.charAt pos s.input with
    | (none, input) =>
      rw [hChar] at hDecode hOk
      obtain ⟨hRun, hRenewals⟩ := matchFrom_end t src hAny hChar
      rw [hRun]
      exact hLast ⟨hReady.marks, hOk⟩ (by rw [hRenewals, Nat.add_zero]) fun _ => hDecode.symm
    | (some d, input) =>
      rw [hChar] at hDecode hOk
      have hPos := Source.lt_size_of_charAt (congrArg Prod.fst hChar)
      have hWidth := d.width_pos
      obtain ⟨set', marks, hNodes⟩ : ∃ set' marks, t.lexNodes.addNodes
          (set.toList.filterMap (t.lexNodes.after? d.char)) s.marks.renew #[] = (set', marks) := ⟨_, _, rfl⟩
      obtain ⟨hRun, hRenewals⟩ := matchFrom_step t src hAny hChar hNodes
      rw [Nat.max_eq_right (Nat.le_add_right _ _)] at hRun
      rw [hRenewals] at hRoom ⊢
      rw [hRun]
      have hRoom' : s.marks.generation.toNat + 1 < 2 ^ 32 := by omega
      obtain ⟨_, hReady', hGeneration'⟩ := LexArena.mem_addNodes
        hReady.marks hRoom'
      have hSet' := hSet.step d.char hReady.marks hRoom'
      rw [hNodes] at hReady' hGeneration' hSet'
      dsimp only at hReady' hGeneration' hSet' hOk
      have hBest' := (hBest.foldl_better (pos + d.width) _).congr (match_le_step hSpans hDecode.symm hSet')
      have hRead' : ∀ front x back, text ++ [d.char] = front ++ x :: back → t.CanRead tokens front := by
        intro front x back hText
        rcases List.eq_nil_or_concat back with rfl | ⟨back, y, rfl⟩
        · obtain ⟨rfl, _⟩ := List.append_inj' hText rfl
          exact hSet.consuming_iff.mp hAny
        · rw [List.concat_eq_append, ← List.cons_append, ← List.append_assoc] at hText
          exact hRead front x back (List.append_inj' hText rfl).1
      obtain ⟨text', stop, hReads, hStop, hBestEnd, hRenewed⟩ := matchFrom_eq (s := ⟨marks, input⟩) h ⟨hReady', hOk⟩
        (hSpans.snoc hDecode.symm) hRead' hSet' hBest' (by rw [hGeneration']; omega)
      refine ⟨text', stop, hReads, hStop, hBestEnd, hRenewed.toReady, ?_⟩
      rw [hRenewed.generation, hGeneration']
      omega
termination_by src.size - pos
decreasing_by omega

/-- What the search for a longest match answers: the best match, and how far it read. -/
def Table.Longest (t : Table) (tokens : List Symbol) (bytes : List UInt8) (pos : Nat) (found : Option Found) : Prop :=
  ∃ text stop, t.Reads tokens bytes pos text stop ∧
    t.BestOf (t.Match tokens bytes pos) (found.map fun f => (f.stop, f.symbol)) ∧ ∀ f ∈ found, f.furthest = stop

theorem longestMatch_eq (h : src.Serves Ok bytes) (pos : Nat) (tokens : List Symbol) {s : LexState σ} (hReady : s.Ready t Ok)
    (hRoom : s.marks.generation.toNat + longestRenewals t src pos tokens s < 2 ^ 32) :
    t.Longest tokens bytes pos (longestMatch t src pos tokens s).1 ∧
      LexState.Renewed t Ok s (longestMatch t src pos tokens s).2 (longestRenewals t src pos tokens s) := by
  obtain ⟨set, marks, hNodes⟩ : ∃ set marks, t.lexNodes.addNodes
      (tokens.filterMap fun token => (t.lexOf token).start) s.marks.renew #[] = (set, marks) := ⟨_, _, rfl⟩
  obtain ⟨hRun, hRenewals⟩ := longestMatch_step t src hNodes
  rw [hRenewals] at hRoom ⊢
  rw [hRun]
  have hRoom' : s.marks.generation.toNat + 1 < 2 ^ 32 := by omega
  obtain ⟨_, hReady', hGeneration'⟩ := LexArena.mem_addNodes hReady.marks hRoom'
  have hSet := holds_first tokens hReady.marks hRoom'
  rw [hNodes] at hReady' hGeneration' hSet
  dsimp only at hReady' hGeneration' hSet
  have hNone : t.BestOf (fun c => t.Match tokens bytes pos c ∧ c.1 ≤ pos) none := by
    rintro c ⟨⟨text, hText, hSpans, _⟩, hLe⟩
    have := hSpans.lt hText
    omega
  obtain ⟨text, stop, hReads, hStop, hBest, hRenewed⟩ := matchFrom_eq (s := ⟨marks, s.input⟩) h
    ⟨hReady', hReady.input⟩ (.nil pos) (by simp) hSet hNone (by rw [hGeneration']; omega)
  refine ⟨⟨text, stop, hReads, ?_, ?_⟩, hRenewed.toReady, ?_⟩
  · simpa [Function.comp_def] using hBest
  · intro f hf
    obtain ⟨c, _, rfl⟩ := Option.map_eq_some_iff.mp hf
    exact hStop
  · rw [hRenewed.generation, hGeneration']
    omega

theorem Table.Longest.unique {pos : Nat} {a b : Option Found} (ha : t.Longest tokens bytes pos a)
    (hb : t.Longest tokens bytes pos b) : a = b := by
  obtain ⟨text, stop, hReads, hBest, hFurthest⟩ := ha
  obtain ⟨text', stop', hReads', hBest', hFurthest'⟩ := hb
  obtain ⟨rfl, rfl⟩ := hReads.unique hReads'
  have hEq := hBest.unique hBest'
  cases a with
  | none =>
    cases b with
    | none => rfl
    | some b => cases hEq
  | some a =>
    cases b with
    | none => cases hEq
    | some b =>
      simp only [Option.map_some, Option.some.injEq, Prod.mk.injEq] at hEq
      have hEnd := (hFurthest a rfl).trans (hFurthest' b rfl).symm
      cases a
      cases b
      simp_all

end Run
end Reparse
