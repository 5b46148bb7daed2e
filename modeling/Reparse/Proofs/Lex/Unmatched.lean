import Reparse.Proofs.Lex.Bounds
/-!
# Texts that no token matches

Where the automata go on over no character of a text, all of it is one error token, whatever the marks hold.
-/
namespace Reparse

/-- No automaton goes on over a character of the text. -/
def Table.Rejects (t : Table) (bytes : List UInt8) : Prop :=
  ∀ pos d, Source.decodeAt bytes pos = some d → ∀ node, t.lexNodes.after? d.char node = none

variable {σ : Type} {src : Source σ} {Ok : σ → Prop} {bytes : List UInt8} (hServes : src.Serves Ok bytes)
include hServes

/-- At most one character is looked at. -/
theorem Table.Rejects.matchFrom {t : Table} (h : t.Rejects bytes) (pos furthest : Nat) (set : Array UInt32) {s : LexState σ}
    (hInput : Ok s.input) : (matchFrom t src pos furthest none set s).1.1 = none ∧
      Ok (matchFrom t src pos furthest none set s).2.input := by
  cases hConsuming : set.any t.lexNodes.isConsuming with
  | false =>
    rw [(matchFrom_done t src hConsuming).1]
    exact ⟨rfl, hInput⟩
  | true =>
    rcases hChar : src.charAt pos s.input with ⟨_ | d, input⟩
    · rw [(matchFrom_end t src hConsuming hChar).1]
      exact ⟨rfl, (hServes.charAt_end hInput hChar).2⟩
    · obtain ⟨hDecode, hOk⟩ := hServes.charAt_eq hInput
      rw [hChar] at hDecode hOk
      have hTargets : set.toList.filterMap (t.lexNodes.after? d.char) = [] :=
        List.filterMap_eq_nil_iff.mpr fun node _ => h pos d hDecode.symm node
      have hNext : t.lexNodes.addNodes (set.toList.filterMap (t.lexNodes.after? d.char)) s.marks.renew #[] =
          (#[], s.marks.renew) := by rw [hTargets, LexArena.addNodes]
      rw [(matchFrom_step t src hConsuming hChar hNext).1, (matchFrom_done t src (by simp)).1]
      exact ⟨rfl, hOk⟩

theorem Table.Rejects.longestMatch {t : Table} (h : t.Rejects bytes) (pos : Nat) (tokens : List Symbol) {s : LexState σ}
    (hInput : Ok s.input) :
    (longestMatch t src pos tokens s).1 = none ∧ Ok (longestMatch t src pos tokens s).2.input := by
  rw [(longestMatch_step t src rfl).1]
  obtain ⟨hNone, hOk⟩ := h.matchFrom hServes pos pos _ (s := ⟨(t.lexNodes.addNodes (tokens.filterMap fun token =>
    (t.lexOf token).start) s.marks.renew #[]).2, s.input⟩) hInput
  exact ⟨by rw [hNone]; rfl, hOk⟩

namespace Language

variable {l : Language}

theorem lexInternal_of_rejects (h : l.table.Rejects bytes) (pos : Nat) (mode : LexMode) (id : LexModeId) {s : LexState σ}
    (hInput : Ok s.input) :
    (l.lexInternal src pos mode id s).1 = none ∧ Ok (l.lexInternal src pos mode id s).2.input := by
  obtain ⟨hNone, hOk⟩ := h.longestMatch hServes pos mode.tokens hInput
  rw [lexInternal]
  generalize longestMatch l.table src pos mode.tokens s = found at hNone hOk
  obtain ⟨found, s'⟩ := found
  obtain rfl : found = none := hNone
  exact ⟨rfl, hOk⟩

theorem skipFrom_of_rejects (h : l.table.Rejects bytes) {stop : Nat} (furthest : Nat) {s : LexState σ} (hInput : Ok s.input)
    (hStop : stop ≤ bytes.length) :
    (l.skipFrom src stop furthest s).1.1 = bytes.length ∧ Ok (l.skipFrom src stop furthest s).2.input := by
  fun_induction skipFrom l src stop furthest s with
  | case1 stop furthest s input hChar =>
    obtain ⟨hEnd, hOk⟩ := hServes.charAt_end hInput hChar
    exact ⟨Nat.le_antisymm hStop hEnd, hOk⟩
  | case2 stop furthest s d input hChar next furthest' input' hNext =>
    obtain ⟨hWithin, hOk⟩ := hServes.charAt_some hInput hChar
    obtain ⟨hEnd, hOk'⟩ := hServes.charAt_end hOk hNext
    exact ⟨Nat.le_antisymm hWithin hEnd, hOk'⟩
  | case3 stop furthest s d input hChar next furthest' d' input' hNext found s' hMatch =>
    have hNone := (h.longestMatch hServes next l.errorMode.tokens (s := { s with input := input' })
      (hServes.charAt_some (hServes.charAt_some hInput hChar).2 hNext).2).1
    rw [hMatch] at hNone
    cases hNone
  | case4 stop furthest s d input hChar next furthest' d' input' hNext s' hMatch ih =>
    obtain ⟨hWithin, hOk⟩ := hServes.charAt_some hInput hChar
    have hOk' := (h.longestMatch hServes next l.errorMode.tokens (s := { s with input := input' })
      (hServes.charAt_some hOk hNext).2).2
    rw [hMatch] at hOk'
    exact ih hOk' hWithin

/-- Inside the text the token is an error up to the end of it. -/
theorem lexAutomata_of_rejects (h : l.table.Rejects bytes) {pos : Nat} (hPos : pos < bytes.length) (id : LexModeId)
    {s : LexState σ} (hInput : Ok s.input) :
    (∃ furthest, (l.lexAutomata src pos id s).1 = errorToken pos bytes.length furthest) ∧
      Ok (l.lexAutomata src pos id s).2.input := by
  have hError {s : LexState σ} (hInput : Ok s.input) :
      (∃ furthest, (l.lexError src pos s).1 = errorToken pos bytes.length furthest) ∧ Ok (l.lexError src pos s).2.input := by
    obtain ⟨hStop, hOk⟩ := skipFrom_of_rejects hServes h pos hInput (Nat.le_of_lt hPos)
    rw [lexError, ← hStop]
    exact ⟨⟨_, rfl⟩, hOk⟩
  rw [lexAutomata]
  split
  next input hChar => exact absurd (hServes.charAt_end hInput hChar).1 (Nat.not_le.mpr hPos)
  next d input hChar =>
    obtain ⟨hNone, hOk⟩ := lexInternal_of_rejects hServes h pos (l.lexMode id) id (s := { s with input })
      (hServes.charAt_some hInput hChar).2
    split
    next token s' hLex =>
      rw [hLex] at hNone
      cases hNone
    next s' hLex =>
      rw [hLex] at hOk
      split
      · exact hError hOk
      · obtain ⟨hAgain, hOk'⟩ := lexInternal_of_rejects hServes h pos (l.lexMode errorLexMode) errorLexMode hOk
        split
        next token s'' hLex =>
          rw [hLex] at hAgain
          cases hAgain
        next s'' hLex =>
          rw [hLex] at hOk'
          exact hError hOk'

theorem lexWith_of_rejects (h : l.table.Rejects bytes) {pos : Nat} (hPos : pos < bytes.length) (id : LexModeId)
    (state : Option (List UInt8)) {s : LexSession σ} (hInput : Ok s.input) :
    (∃ furthest, (l.lexWith none src pos id state s).1 = errorToken pos bytes.length furthest) ∧
      Ok (l.lexWith none src pos id state s).2.input :=
  lexAutomata_of_rejects hServes h hPos id hInput

end Language
end Reparse
