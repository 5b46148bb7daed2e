import Reparse.Proofs.Lex.Bounds
/-!
# Sources that answer alike

Two sources over one text may cut it into other chunks and keep other states. As long as the characters and the end that
they answer with are the same, so is all that is lexed from them, the marks included.
-/
namespace Reparse

variable {σ τ α : Type} {R : σ → τ → Prop}

/-- The answers are the same, and the states after them belong together. -/
inductive Tied (R : σ → τ → Prop) : α × σ → α × τ → Prop
  | mk (a : α) {s : σ} {t : τ} : R s t → Tied R (a, s) (a, t)

theorem tied_of_eq {a : α × σ} {b : α × τ} (hEq : a.1 = b.1) (hR : R a.2 b.2) : Tied R a b := by
  obtain ⟨a, s⟩ := a
  obtain ⟨b, t⟩ := b
  obtain rfl : a = b := hEq
  exact .mk a hR

theorem Tied.parts {a : α × σ} {b : α × τ} (h : Tied R a b) : ∃ x s t, a = (x, s) ∧ b = (x, t) ∧ R s t := by
  cases h with
  | mk x hst => exact ⟨x, _, _, rfl, rfl, hst⟩

/-- The marks are the same, and the inputs belong together. -/
inductive LexState.Tied (R : σ → τ → Prop) : LexState σ → LexState τ → Prop
  | mk (marks : LexMarks) {s : σ} {t : τ} : R s t → Tied R ⟨marks, s⟩ ⟨marks, t⟩

/-- The marks and what is left of the last scan are the same, and the inputs belong together. -/
inductive LexSession.Tied (R : σ → τ → Prop) : LexSession σ → LexSession τ → Prop
  | mk (marks : LexMarks) (memory : Option ScanMemory) {s : σ} {t : τ} : R s t →
    Tied R { marks, input := s, memory } { marks, input := t, memory }

namespace Source

/-- In states that belong together the sources answer alike. -/
structure Alike (src : Source σ) (src' : Source τ) (R : σ → τ → Prop) : Prop where
  size_eq : src.size = src'.size
  charAt : ∀ pos s t, R s t → Tied R (src.charAt pos s) (src'.charAt pos t)
  endFrom : ∀ pos s t, R s t → Tied R (src.endFrom pos s) (src'.endFrom pos t)

/-- Sources that serve one text answer alike, and whatever they leave as it is may tell which states belong together. -/
theorem alike_of_serves {src : Source σ} {src' : Source τ} {bytes : List UInt8} {ι : Type} {Ok : ι → σ → Prop}
    {Ok' : ι → τ → Prop} (h : ∀ x, src.Serves (Ok x) bytes) (h' : ∀ x, src'.Serves (Ok' x) bytes)
    (hSize : src.size = src'.size) (hR : ∀ s t, R s t ↔ ∃ x, Ok x s ∧ Ok' x t) : src.Alike src' R where
  size_eq := hSize
  charAt pos s t hst := by
    obtain ⟨x, hs, ht⟩ := (hR s t).mp hst
    obtain ⟨hChar, hOk⟩ : (src.charAt pos s).1 = decodeAt bytes pos ∧ Ok x (src.charAt pos s).2 := (h x).charAt_eq hs
    obtain ⟨hChar', hOk'⟩ : (src'.charAt pos t).1 = decodeAt bytes pos ∧ Ok' x (src'.charAt pos t).2 :=
      (h' x).charAt_eq ht
    exact tied_of_eq (hChar.trans hChar'.symm) ((hR _ _).mpr ⟨x, hOk, hOk'⟩)
  endFrom pos s t hst := by
    obtain ⟨x, hs, ht⟩ := (hR s t).mp hst
    obtain ⟨hEnd, hOk⟩ : (src.endFrom pos s).1 = max bytes.length pos ∧ Ok x (src.endFrom pos s).2 :=
      (h x).endFrom_eq hs
    obtain ⟨hEnd', hOk'⟩ : (src'.endFrom pos t).1 = max bytes.length pos ∧ Ok' x (src'.endFrom pos t).2 :=
      (h' x).endFrom_eq ht
    exact tied_of_eq (hEnd.trans hEnd'.symm) ((hR _ _).mpr ⟨x, hOk, hOk'⟩)

theorem serves_ofBytes_of (array : ByteArray) (Ok : σ → Prop) : (Source.ofBytes array).Serves Ok array.data.toList := by
  have h := serves_ofBytes (σ := σ) array
  exact ⟨h.size_eq, fun _ _ hs => hs, fun offset s _ => h.size_pos offset s trivial,
    fun offset s i _ => h.get?_eq offset s i trivial⟩

end Source

/-! ## Scanners and automata -/

section Equations

variable (src : Source σ)

theorem ExternalScanner.runFrom_unfold (scanner : ExternalScanner) (pos furthest : Nat) (mark : Option Nat)
    (memory : ScanMemory) (input : σ) :
    scanner.runFrom src pos furthest mark memory input =
      match src.charAt pos input with
      | (none, input) =>
        (⟨(scanner.onEnd pos memory).2.1, (scanner.onEnd pos memory).2.2,
          if (scanner.onEnd pos memory).1 then pos else mark.getD pos, furthest⟩, input)
      | (some d, input) =>
        match scanner.onChar pos memory d.char with
        | .stop marks index memory =>
          (⟨index, memory, if marks then pos else mark.getD pos, max furthest (pos + d.width)⟩, input)
        | .advance marks memory =>
          scanner.runFrom src (pos + d.width) (max furthest (pos + d.width)) (if marks then some pos else mark) memory
            input := by
  conv_lhs => rw [ExternalScanner.runFrom]
  split
  next hNone => rw [hNone]
  next hSome =>
    rewrite [hSome]
    rfl

theorem matchFrom_unfold (t : Table) (pos furthest : Nat) (best : Option (Nat × Symbol)) (set : Array UInt32)
    (s : LexState σ) :
    matchFrom t src pos furthest best set s =
      if set.any t.lexNodes.isConsuming then
        match src.charAt pos s.input with
        | (none, input) => ((best, furthest), { s with input })
        | (some d, input) =>
          let next := t.lexNodes.addNodes (set.toList.filterMap (t.lexNodes.after? d.char)) s.marks.renew #[]
          let best := (next.1.toList.filterMap t.lexNodes.accepted?).foldl (t.better (pos + d.width)) best
          if next.1.isEmpty then ((best, max furthest (pos + d.width)), ⟨next.2, input⟩)
          else matchFrom t src (pos + d.width) (max furthest (pos + d.width)) best next.1 ⟨next.2, input⟩
      else ((best, furthest), s) := by
  conv_lhs => rw [matchFrom]
  split
  next =>
    split
    next hNone => rw [hNone]
    next hSome => rw [hSome]
  next => rfl

theorem Language.skipFrom_unfold (l : Language) (stop furthest : Nat) (s : LexState σ) :
    l.skipFrom src stop furthest s =
      match src.charAt stop s.input with
      | (none, input) => ((stop, furthest), { s with input })
      | (some d, input) =>
        match src.charAt (stop + d.width) input with
        | (none, input) => ((stop + d.width, max furthest (stop + d.width)), { s with input })
        | (some _, input) =>
          match longestMatch l.table src (stop + d.width) l.errorMode.tokens { s with input } with
          | (some found, s) => ((stop + d.width, max (max furthest (stop + d.width)) found.furthest), s)
          | (none, s) => l.skipFrom src (stop + d.width) (max furthest (stop + d.width)) s := by
  conv_lhs => rw [Language.skipFrom]
  split
  next hNone => rw [hNone]
  next hSome =>
    rewrite [hSome]
    rfl

end Equations

section Lexing

variable {src : Source σ} {src' : Source τ} (h : src.Alike src' R)
include h

theorem runFrom_tied (scanner : ExternalScanner) (pos furthest : Nat) (mark : Option Nat) (memory : ScanMemory) {s : σ}
    {t : τ} (hst : R s t) :
    Tied R (scanner.runFrom src pos furthest mark memory s) (scanner.runFrom src' pos furthest mark memory t) := by
  generalize hLeft : src.size - pos = left
  induction left using Nat.strongRecOn generalizing pos furthest mark memory s t with
  | ind left ih =>
    obtain ⟨read, u, v, hu, hv, hRest⟩ := (h.charAt pos s t hst).parts
    rw [ExternalScanner.runFrom_unfold, ExternalScanner.runFrom_unfold, hu, hv]
    cases read with
    | none => exact .mk _ hRest
    | some d =>
      have hLess := Source.lt_size_of_charAt (congrArg Prod.fst hu)
      have hWidth := d.width_pos
      dsimp only
      split
      next => exact .mk _ hRest
      next => exact ih _ (by omega) _ _ _ _ hRest rfl

theorem lexExternal_tied (l : Language) (scanner : ExternalScanner) (pos : Nat) (id : LexModeId)
    (state : Option (List UInt8)) (left : ScanMemory) {s : σ} {t : τ} (hst : R s t) :
    Tied R (l.lexExternal scanner src pos id state left s) (l.lexExternal scanner src' pos id state left t) := by
  obtain ⟨scan, u, v, hu, hv, hRest⟩ :=
    (runFrom_tied h scanner pos pos none (scanner.start (state.getD []) (l.lexMode id).externals pos left) hst).parts
  simp only [Language.lexExternal, hu, hv]
  exact .mk _ hRest

theorem matchFrom_tied (t : Table) (pos furthest : Nat) (best : Option (Nat × Symbol)) (set : Array UInt32)
    {s : LexState σ} {s' : LexState τ} (hs : s.Tied R s') :
    Tied (LexState.Tied R) (matchFrom t src pos furthest best set s) (matchFrom t src' pos furthest best set s') := by
  generalize hLeft : src.size - pos = left
  induction left using Nat.strongRecOn generalizing pos furthest best set s s' with
  | ind left ih =>
    cases hs with
    | @mk marks input input' hst =>
      obtain ⟨read, u, v, hu, hv, hRest⟩ := (h.charAt pos input input' hst).parts
      rw [matchFrom_unfold, matchFrom_unfold]
      split
      next =>
        simp only [hu, hv]
        cases read with
        | none => exact .mk _ (.mk _ hRest)
        | some d =>
          have hLess := Source.lt_size_of_charAt (congrArg Prod.fst hu)
          have hWidth := d.width_pos
          dsimp only
          split
          next => exact .mk _ (.mk _ hRest)
          next => exact ih _ (by omega) _ _ _ _ (.mk _ hRest) rfl
      next => exact .mk _ (.mk _ hst)

theorem longestMatch_tied (t : Table) (pos : Nat) (tokens : List Symbol) {s : LexState σ} {s' : LexState τ}
    (hs : s.Tied R s') : Tied (LexState.Tied R) (longestMatch t src pos tokens s) (longestMatch t src' pos tokens s') := by
  cases hs with
  | mk marks hst =>
    rw [longestMatch, longestMatch]
    dsimp only
    generalize t.lexNodes.addNodes _ marks.renew #[] = added
    obtain ⟨set, marks⟩ := added
    obtain ⟨found, u, v, hu, hv, hRest⟩ := (matchFrom_tied h t pos pos none set (.mk marks hst)).parts
    simp only [hu, hv]
    exact .mk _ hRest

/-! ## Tokens -/

theorem keywordFor_tied (l : Language) (pos : Nat) (found : Found) {s : LexState σ} {s' : LexState τ} (hs : s.Tied R s') :
    Tied (LexState.Tied R) (l.keywordFor src pos found s) (l.keywordFor src' pos found s') := by
  obtain ⟨keyword, u, v, hu, hv, hRest⟩ := (longestMatch_tied h l.table pos l.keywords hs).parts
  rw [Language.keywordFor, Language.keywordFor, hu, hv]
  split
  next =>
    cases keyword with
    | none => exact .mk _ hRest
    | some keyword =>
      dsimp only
      split
      next => exact .mk _ hRest
      next => exact .mk _ hRest
  next => exact .mk _ hs

theorem lexInternal_tied (l : Language) (pos : Nat) (mode : LexMode) (id : LexModeId) {s : LexState σ} {s' : LexState τ}
    (hs : s.Tied R s') : Tied (LexState.Tied R) (l.lexInternal src pos mode id s) (l.lexInternal src' pos mode id s') := by
  obtain ⟨found, u, v, hu, hv, hMatched⟩ := (longestMatch_tied h l.table pos mode.tokens hs).parts
  rw [Language.lexInternal, Language.lexInternal, hu, hv]
  cases found with
  | none => exact .mk _ hMatched
  | some found =>
    obtain ⟨found, u, v, hu, hv, hRest⟩ := (keywordFor_tied h l pos found hMatched).parts
    simp only [hu, hv]
    exact .mk _ hRest

theorem skipFrom_tied (l : Language) (stop furthest : Nat) {s : LexState σ} {s' : LexState τ} (hs : s.Tied R s') :
    Tied (LexState.Tied R) (l.skipFrom src stop furthest s) (l.skipFrom src' stop furthest s') := by
  generalize hLeft : src.size - stop = left
  induction left using Nat.strongRecOn generalizing stop furthest s s' with
  | ind left ih =>
    cases hs with
    | @mk marks input input' hst =>
      obtain ⟨read, u, v, hu, hv, hNext⟩ := (h.charAt stop input input' hst).parts
      rw [Language.skipFrom_unfold, Language.skipFrom_unfold, hu, hv]
      cases read with
      | none => exact .mk _ (.mk _ hNext)
      | some d =>
        have hLess := Source.lt_size_of_charAt (congrArg Prod.fst hu)
        have hWidth := d.width_pos
        obtain ⟨read, u, v, hu, hv, hRest⟩ := (h.charAt (stop + d.width) _ _ hNext).parts
        simp only [hu, hv]
        cases read with
        | none => exact .mk _ (.mk _ hRest)
        | some _ =>
          obtain ⟨found, u, v, hu, hv, hLast⟩ :=
            (longestMatch_tied h l.table (stop + d.width) l.errorMode.tokens (.mk marks hRest)).parts
          simp only [hu, hv]
          cases found with
          | none => exact ih _ (by omega) _ _ hLast rfl
          | some found => exact .mk _ hLast

theorem lexError_tied (l : Language) (pos : Nat) {s : LexState σ} {s' : LexState τ} (hs : s.Tied R s') :
    Tied (LexState.Tied R) (l.lexError src pos s) (l.lexError src' pos s') := by
  obtain ⟨stops, u, v, hu, hv, hRest⟩ := (skipFrom_tied h l pos pos hs).parts
  rw [Language.lexError, Language.lexError, hu, hv]
  exact .mk _ hRest

theorem lexAutomata_tied (l : Language) (pos : Nat) (id : LexModeId) {s : LexState σ} {s' : LexState τ} (hs : s.Tied R s') :
    Tied (LexState.Tied R) (l.lexAutomata src pos id s) (l.lexAutomata src' pos id s') := by
  cases hs with
  | @mk marks input input' hst =>
    obtain ⟨read, u, v, hu, hv, hNext⟩ := (h.charAt pos input input' hst).parts
    rw [Language.lexAutomata, Language.lexAutomata]
    simp only [hu, hv]
    cases read with
    | none => exact .mk _ (.mk _ hNext)
    | some _ =>
      obtain ⟨token, u, v, hu, hv, hRest⟩ := (lexInternal_tied h l pos (l.lexMode id) id (.mk marks hNext)).parts
      simp only [hu, hv]
      cases token with
      | some token => exact .mk _ hRest
      | none =>
        dsimp only
        split
        next => exact lexError_tied h l pos hRest
        next =>
          obtain ⟨token, u, v, hu, hv, hLast⟩ :=
            (lexInternal_tied h l pos (l.lexMode errorLexMode) errorLexMode hRest).parts
          rw [hu, hv]
          cases token with
          | some token => exact .mk _ hLast
          | none => exact lexError_tied h l pos hLast

/-- Tokens are the same, and so are the marks after them and what is left of scans. -/
theorem lexWith_tied (l : Language) (scanner : Option ExternalScanner) (pos : Nat) (id : LexModeId)
    (state : Option (List UInt8)) {s : LexSession σ} {s' : LexSession τ} (hs : s.Tied R s') :
    Tied (LexSession.Tied R) (l.lexWith scanner src pos id state s) (l.lexWith scanner src' pos id state s') := by
  have hAutomata (memory : Option ScanMemory) {s : LexState σ} {s' : LexState τ} (hs : s.Tied R s') :
      Tied (LexSession.Tied R)
        ((l.lexAutomata src pos id s).1, { (l.lexAutomata src pos id s).2 with memory : LexSession σ })
        ((l.lexAutomata src' pos id s').1, { (l.lexAutomata src' pos id s').2 with memory : LexSession τ }) := by
    obtain ⟨token, u, v, hu, hv, hRest⟩ := (lexAutomata_tied h l pos id hs).parts
    rw [hu, hv]
    cases hRest with
    | mk marks hst => exact .mk token (.mk marks memory hst)
  cases hs with
  | mk marks memory hst =>
    cases scanner with
    | none => exact hAutomata memory (.mk marks hst)
    | some scanner =>
      rw [Language.lexWith, Language.lexWith]
      split
      next =>
        obtain ⟨⟨token, left⟩, u, v, hu, hv, hRest⟩ :=
          (lexExternal_tied h l scanner pos id state (memory.getD scanner.fresh) hst).parts
        simp only [hu, hv]
        cases token with
        | some token => exact .mk token (.mk marks (some left) hRest)
        | none => exact hAutomata (some left) (.mk marks hRest)
      next => exact hAutomata memory (.mk marks hst)

end Lexing
end Reparse
