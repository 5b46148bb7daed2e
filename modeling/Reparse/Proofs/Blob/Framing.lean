import Mathlib
import Reparse.Blob.Reader
import Reparse.Proofs.Table
/-!
# Compiled tables delimit themselves

A reader that succeeds on some bytes succeeds alike with more bytes behind them. With fewer it either has read
all it needs, or it reports that bytes are missing: the values that it would reject later come first in both.
-/
namespace Reparse
namespace Blob
namespace Reader

variable {α β : Type} {m : Reader α} {f : α → Reader β} {c c' : Cursor}

theorem bind_of_ok {a : α} (h : m c = .ok (a, c')) : (m >>= f) c = f a c' := by
  change Except.bind (m c) _ = _
  rw [h]
  rfl

theorem bind_of_error {e : LoadError} (h : m c = .error e) : (m >>= f) c = .error e := by
  change Except.bind (m c) _ = _
  rw [h]
  rfl

theorem bind_eq_ok {b : β} (h : (m >>= f) c = .ok (b, c')) :
    ∃ a mid, m c = .ok (a, mid) ∧ f a mid = .ok (b, c') := by
  cases hm : m c with
  | error e => rw [bind_of_error hm] at h; cases h
  | ok r => exact ⟨r.1, r.2, rfl, by rwa [bind_of_ok hm] at h⟩

structure Framed (read : Reader α) : Prop where
  longer {bytes rest : Bytes} {offset stop : Nat} {a : α} (extra : Bytes) :
    read ⟨bytes, offset⟩ = .ok (a, ⟨rest, stop⟩) → read ⟨bytes ++ extra, offset⟩ = .ok (a, ⟨rest ++ extra, stop⟩)
  shorter {bytes extra rest : Bytes} {offset stop : Nat} {a : α} :
    read ⟨bytes ++ extra, offset⟩ = .ok (a, ⟨rest, stop⟩) →
      (∃ rest', rest = rest' ++ extra ∧ read ⟨bytes, offset⟩ = .ok (a, ⟨rest', stop⟩)) ∨
        ∃ missing, read ⟨bytes, offset⟩ = .error (.unexpectedEof missing)

theorem framed_pure (a : α) : Framed (pure a : Reader α) where
  longer extra h := by
    cases h
    rfl
  shorter h := by
    cases h
    exact .inl ⟨_, rfl, rfl⟩

theorem framed_throw (e : LoadError) : Framed (throw e : Reader α) where
  longer extra h := by cases h
  shorter h := by cases h

theorem framed_malformed (fault : TableFault) : Framed (malformed fault : Reader α) := framed_throw _

theorem Framed.bind (hm : Framed m) (hf : ∀ a, Framed (f a)) : Framed (m >>= f) where
  longer extra h := by
    obtain ⟨a, mid, hFirst, hSecond⟩ := bind_eq_ok h
    rw [bind_of_ok (hm.longer extra hFirst)]
    exact (hf a).longer extra hSecond
  shorter h := by
    obtain ⟨a, mid, hFirst, hSecond⟩ := bind_eq_ok h
    rcases hm.shorter hFirst with ⟨rest, hRest, hSame⟩ | ⟨missing, hMissing⟩
    · rw [bind_of_ok hSame]
      obtain ⟨rest', stop⟩ := mid
      obtain rfl : rest' = rest ++ _ := hRest
      exact (hf a).shorter hSecond
    · exact .inr ⟨missing, bind_of_error hMissing⟩

theorem Framed.ite {p : Prop} [Decidable p] {a b : Reader α} (ha : Framed a) (hb : Framed b) :
    Framed (if p then a else b) := by
  split
  · exact ha
  · exact hb

/-! ## The readers -/

theorem take_eq_ok {n : Nat} {bytes : Bytes} {offset : Nat} {a : Bytes} :
    take n ⟨bytes, offset⟩ = .ok (a, c) ↔ n ≤ bytes.length ∧ bytes.take n = a ∧ ⟨bytes.drop n, offset + n⟩ = c := by
  rw [take]
  split
  next h => simp [(hasLength_iff _ _).mp h]
  next h => simp [(hasLength_iff _ _).not.mp h]

theorem framed_take (n : Nat) : Framed (take n) where
  longer extra h := by
    obtain ⟨hLength, rfl, hRest⟩ := take_eq_ok.mp h
    obtain ⟨rfl, rfl⟩ := Cursor.mk.inj hRest
    apply take_eq_ok.mpr
    rw [List.length_append, List.take_append_of_le_length hLength, List.drop_append_of_le_length hLength]
    exact ⟨by omega, rfl, rfl⟩
  shorter {bytes extra _ offset _ _} h := by
    obtain ⟨-, rfl, hRest⟩ := take_eq_ok.mp h
    obtain ⟨rfl, rfl⟩ := Cursor.mk.inj hRest
    by_cases hLength : n ≤ bytes.length
    · rw [List.take_append_of_le_length hLength, List.drop_append_of_le_length hLength]
      exact .inl ⟨_, rfl, take_eq_ok.mpr ⟨hLength, rfl, rfl⟩⟩
    · exact .inr ⟨offset, if_neg ((hasLength_iff _ _).not.mpr hLength)⟩

theorem framed_byte : Framed byte := by
  refine (framed_take 1).bind fun bytes => ?_
  split
  · exact framed_pure _
  · exact framed_pure _

theorem framed_word16 : Framed word16 := by
  refine (framed_take 2).bind fun bytes => ?_
  split
  · exact framed_pure _
  · exact framed_pure _

theorem framed_word32 : Framed word32 := by
  refine (framed_take 4).bind fun bytes => ?_
  split
  · exact framed_pure _
  · exact framed_pure _

theorem count_eq : count = word32 >>= fun n c =>
    if hasLength c.rest n.toNat then .ok (n.toNat, c) else .error (.unexpectedEof c.offset) := by
  rw [count]
  congr
  funext n c
  change (if _ then pure n.toNat else throw _ : Reader Nat) c = _
  split
  · rfl
  · rfl

/-- With fewer bytes a count may be too large, which is a sign of truncation. -/
theorem framed_count : Framed count := by
  rw [count_eq]
  refine framed_word32.bind fun n => ⟨?_, ?_⟩
  · intro bytes rest offset stop a extra h
    dsimp only at h ⊢
    split at h
    next hLength =>
      cases h
      rw [hasLength_iff] at hLength
      apply if_pos
      rw [hasLength_iff, List.length_append]
      omega
    next => cases h
  · intro bytes extra rest offset stop a h
    dsimp only at h ⊢
    split at h
    next =>
      cases h
      by_cases hLength : hasLength bytes n.toNat = true
      · exact .inl ⟨bytes, rfl, if_pos hLength⟩
      · exact .inr ⟨offset, if_neg hLength⟩
    next => cases h

theorem framed_manyFrom {read : Reader α} (h : Framed read) (n : Nat) (done : Array α) :
    Framed (manyFrom read n done) := by
  induction n generalizing done with
  | zero => exact framed_pure done
  | succ n ih => exact h.bind fun a => ih (done.push a)

theorem framed_many {read : Reader α} (h : Framed read) (n : Nat) : Framed (many read n) := framed_manyFrom h n #[]

theorem framed_counted {read : Reader α} (h : Framed read) : Framed (counted read) :=
  framed_count.bind fun n => framed_many h n

theorem framed_counted16 {read : Reader α} (h : Framed read) : Framed (counted16 read) :=
  framed_word16.bind fun n => (framed_many h n.toNat).bind fun items => framed_pure items.toList

theorem framed_text : Framed text := by
  refine framed_count.bind fun n => (framed_take n).bind fun bytes => ?_
  split
  · exact framed_pure _
  · exact framed_throw _

theorem framed_symbol : Framed symbol := framed_word16.bind fun _ => framed_pure _

theorem framed_symbolInfo : Framed symbolInfo :=
  framed_text.bind fun _ => framed_byte.bind fun _ => framed_pure _

theorem framed_fieldEntry : Framed fieldEntry :=
  framed_word16.bind fun _ => framed_word16.bind fun _ => framed_pure _

theorem framed_production : Framed production :=
  framed_symbol.bind fun _ => framed_word16.bind fun _ => (framed_counted16 framed_fieldEntry).bind fun _ => framed_pure _

theorem framed_action : Framed action := by
  refine framed_byte.bind fun tag => ?_
  split
  · exact framed_pure _
  · exact framed_word16.bind fun _ => framed_pure _
  · exact framed_word16.bind fun _ => framed_pure _
  · exact framed_pure _
  · exact framed_malformed _

theorem framed_goto : Framed goto := by
  refine framed_byte.bind fun tag => ?_
  split
  · exact framed_pure _
  · exact framed_word16.bind fun _ => framed_pure _

theorem framed_character : Framed character := by
  refine framed_word32.bind fun code => ?_
  split
  · exact framed_pure _
  · exact framed_malformed _

theorem framed_charRange : Framed charRange :=
  framed_character.bind fun _ => framed_character.bind fun _ => framed_pure _

theorem framed_lexNode : Framed lexNode := by
  refine framed_byte.bind fun tag => ?_
  split
  · exact framed_byte.bind fun _ => framed_word32.bind fun _ =>
      (framed_counted framed_charRange).bind fun _ => framed_pure _
  · exact framed_word32.bind fun _ => framed_word32.bind fun _ => framed_pure _
  · exact framed_symbol.bind fun _ => framed_pure _
  · exact framed_malformed _

theorem framed_tokenLex (version : UInt16) : Framed (tokenLex version) :=
  framed_byte.bind fun _ => framed_word32.bind fun _ => framed_pure _

theorem framed_wordToken (version : UInt16) : Framed (wordToken version) :=
  .ite (framed_symbol.bind fun _ => framed_pure _) (framed_pure _)

theorem framed_header : Framed header := by
  have hFlags (version : UInt16) : Framed (do let _ ← word16; pure version) :=
    framed_word16.bind fun _ => framed_pure version
  have hVersion : Framed (do
      let version ← word16
      if version < oldestVersion ∨ formatVersion < version then throw (.versionMismatch version)
      let _ ← word16
      pure version) :=
    framed_word16.bind fun version => .ite ((framed_throw _).bind fun _ => hFlags version) (hFlags version)
  exact (framed_take _).bind fun _ => .ite ((framed_throw _).bind fun _ => hVersion) hVersion

theorem framed_table (version : UInt16) : Framed (table version) := by
  refine framed_text.bind fun name => (framed_counted framed_symbolInfo).bind fun symbols =>
    framed_word16.bind fun tokenCount => ?_
  have hParts {rest : Reader Table} (h : Framed rest) : Framed (do
      if symbols.size < tokenCount.toNat then malformed .tokenCountExcess
      rest) := .ite ((framed_malformed _).bind fun _ => h) h
  exact hParts <| (framed_counted framed_text).bind fun fields => (framed_counted framed_production).bind fun productions =>
    framed_word16.bind fun stateCount => (framed_many framed_action _).bind fun actions =>
    (framed_many framed_goto _).bind fun gotos => (framed_counted framed_lexNode).bind fun lexNodes =>
    (framed_many (framed_tokenLex version) _).bind fun tokenLex => (framed_counted16 framed_symbol).bind fun extras =>
    (framed_counted16 framed_symbol).bind fun externals => framed_symbol.bind fun start =>
    (framed_wordToken version).bind fun word => framed_pure _

end Reader

/-! ## Whole tables -/

/-- The header and the table behind it, whatever follows. -/
def Reader.versioned : Reader (Table × UInt16) := do
  let version ← header
  let table ← table version
  pure (table, version)

theorem Reader.framed_versioned : Framed versioned :=
  framed_header.bind fun version => (framed_table version).bind fun _ => framed_pure _

theorem decode_of_error {data : Bytes} {e : LoadError} (h : Reader.versioned ⟨data, 0⟩ = .error e) :
    decode data = .error e := by
  rw [Reader.versioned] at h
  change Except.bind (Reader.header ⟨data, 0⟩) _ = _
  cases hHeader : Reader.header ⟨data, 0⟩ with
  | error e' =>
    rw [Reader.bind_of_error hHeader] at h
    cases h
    rfl
  | ok r =>
    rw [Reader.bind_of_ok hHeader] at h
    change Except.bind (Reader.table r.1 r.2) _ = _
    cases hTable : Reader.table r.1 r.2 with
    | error e' =>
      rw [Reader.bind_of_error hTable] at h
      cases h
      rfl
    | ok r' =>
      rw [Reader.bind_of_ok hTable] at h
      cases h

theorem decode_of_ok {data : Bytes} {t : Table} {version : UInt16} {c : Cursor}
    (h : Reader.versioned ⟨data, 0⟩ = .ok ((t, version), c)) : decode data =
      if c.rest ≠ [] then .error (.malformed .trailingBytes)
      else (t.validate.mapError LoadError.malformed).map fun _ => (t, version) := by
  obtain ⟨version, mid, hHeader, hRest⟩ := Reader.bind_eq_ok h
  obtain ⟨t, stop, hTable, hSame⟩ := Reader.bind_eq_ok hRest
  cases hSame
  change Except.bind (Reader.header ⟨data, 0⟩) _ = _
  rw [hHeader]
  change Except.bind (Reader.table version mid) _ = _
  rw [hTable]
  obtain ⟨rest, stop⟩ := c
  cases rest with
  | cons byte rest => rfl
  | nil =>
    dsimp only [Except.bind]
    cases hValid : t.validate with
    | ok _ => rfl
    | error fault => rfl

theorem decode_eq_ok {data : Bytes} {t : Table} {version : UInt16} : decode data = .ok (t, version) ↔
    (∃ stop, Reader.versioned ⟨data, 0⟩ = .ok ((t, version), ⟨[], stop⟩)) ∧ t.validate = .ok () := by
  constructor
  · intro h
    cases hRead : Reader.versioned ⟨data, 0⟩ with
    | error e => rw [decode_of_error hRead] at h; cases h
    | ok r =>
      rw [decode_of_ok hRead] at h
      split at h
      next => cases h
      next hRest =>
        cases hValid : r.1.1.validate with
        | error fault => rw [hValid] at h; cases h
        | ok u =>
          rw [hValid] at h
          obtain ⟨⟨t', version'⟩, ⟨rest, stop⟩⟩ := r
          cases h
          obtain rfl : rest = [] := not_not.mp hRest
          exact ⟨⟨stop, rfl⟩, hValid⟩
  · rintro ⟨⟨stop, hRead⟩, hValid⟩
    rw [decode_of_ok hRead, hValid]
    rfl

/-- Compiled tables delimit themselves: when bytes are missing at the end decoding says just that, and bytes behind
the table are faulted. -/
theorem decode_delimits {data : Bytes} {t : Table} {version : UInt16} (h : decode data = .ok (t, version)) :
    (∀ front, front <+: data → front ≠ data → ∃ missing, decode front = .error (.unexpectedEof missing)) ∧
      ∀ extra, extra ≠ [] → decode (data ++ extra) = .error (.malformed .trailingBytes) := by
  obtain ⟨⟨stop, hRead⟩, -⟩ := decode_eq_ok.mp h
  constructor
  · intro front hFront hShort
    obtain ⟨cut, rfl⟩ := hFront
    rcases Reader.framed_versioned.shorter hRead with ⟨rest, hRest, -⟩ | ⟨missing, hMissing⟩
    · obtain ⟨-, rfl⟩ := List.append_eq_nil_iff.mp hRest.symm
      exact absurd (List.append_nil front).symm hShort
    · exact ⟨missing, decode_of_error hMissing⟩
  · intro extra hExtra
    rw [decode_of_ok (Reader.framed_versioned.longer extra hRead)]
    exact if_pos hExtra

theorem decode_greeting : decode (encode .greeting) = .ok (.greeting, formatVersion) := by cbv

theorem greeting_delimits : decode (encode .greeting) = .ok (.greeting, formatVersion) ∧
    (∀ front, front <+: encode .greeting → front ≠ encode .greeting →
      ∃ missing, decode front = .error (.unexpectedEof missing)) ∧
      ∀ extra, extra ≠ [] → decode (encode .greeting ++ extra) = .error (.malformed .trailingBytes) :=
  ⟨decode_greeting, decode_delimits decode_greeting⟩

end Blob
end Reparse
