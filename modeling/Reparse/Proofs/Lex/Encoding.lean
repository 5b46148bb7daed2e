import Reparse.Proofs.Lex.Runs
/-!
# Encoded texts

The characters of a well-formed text are read back from its encoding. Reading one of them depends on the
bytes of its own encoding only, so any other text with the same bytes there has the same characters.
-/
namespace Reparse

/-- The bytes of a text. -/
def Utf8.encode (text : List Char) : List UInt8 := text.flatMap String.utf8EncodeChar

/-- The offset lies between two characters of the text, or at one of its ends. -/
def Utf8.IsBoundary (text : List Char) (pos : Nat) : Prop :=
  ∃ front back, text = front ++ back ∧ pos = (encode front).length

namespace Utf8

@[simp] theorem encode_nil : encode [] = [] := rfl

@[simp] theorem encode_cons (c : Char) (text : List Char) :
    encode (c :: text) = String.utf8EncodeChar c ++ encode text := List.flatMap_cons

@[simp] theorem encode_append (front back : List Char) : encode (front ++ back) = encode front ++ encode back :=
  List.flatMap_append

theorem encode_toList (text : String) : encode text.toList = text.toUTF8.data.toList := by
  rw [String.toUTF8_eq_toByteArray, ← String.utf8Encode_toList, List.utf8Encode, encode]
  simp

theorem IsBoundary.le_length {text : List Char} {pos : Nat} (h : IsBoundary text pos) : pos ≤ (encode text).length := by
  obtain ⟨front, back, rfl, rfl⟩ := h
  rw [encode_append, List.length_append]
  exact Nat.le_add_right _ _

theorem width_eq (a : UInt8) : width a =
    if a.toNat ≤ 127 then 1 else if 194 ≤ a.toNat ∧ a.toNat ≤ 223 then 2
    else if 224 ≤ a.toNat ∧ a.toNat ≤ 239 then 3 else if 240 ≤ a.toNat ∧ a.toNat ≤ 244 then 4 else 0 := by
  simp only [width, UInt8.le_iff_toNat_le]
  rfl

theorem isTail_iff {a : UInt8} : isTail a = true ↔ 128 ≤ a.toNat ∧ a.toNat ≤ 191 := by
  simp [isTail, UInt8.le_iff_toNat_le]

theorem isSecond_iff {a b : UInt8} : isSecond a b = true ↔ 128 ≤ b.toNat ∧ b.toNat ≤ 191 ∧
    (a.toNat = 224 → 160 ≤ b.toNat) ∧ (a.toNat = 237 → b.toNat ≤ 159) ∧ (a.toNat = 240 → 144 ≤ b.toNat) ∧
    (a.toNat = 244 → b.toNat ≤ 143) := by
  simp only [isSecond, isTail, ← UInt8.toNat_inj, UInt8.le_iff_toNat_le]
  have h224 : (0xE0 : UInt8).toNat = 224 := rfl
  have h237 : (0xED : UInt8).toNat = 237 := rfl
  have h240 : (0xF0 : UInt8).toNat = 240 := rfl
  have h244 : (0xF4 : UInt8).toNat = 244 := rfl
  rw [h224, h237, h240, h244]
  repeat' split
  all_goals
    simp
    omega

theorem scalar?_eq_some (c : Char) {code : Nat} (h : code = c.val.toNat) : scalar? code = some c := by
  subst h
  rw [scalar?, dif_pos c.valid]
  rfl

theorem tailBits_ofNat (n : Nat) : tailBits (UInt8.ofNat (n % 64 + 128)) = n % 64 := by
  have hBits : tailBits (UInt8.ofNat (n % 64 + 128)) = (UInt8.ofNat (n % 64 + 128)).toNat - 128 := rfl
  rw [hBits, UInt8.toNat_ofNat', Nat.mod_eq_of_lt (by omega), Nat.add_sub_cancel]

theorem isTail_ofNat (n : Nat) : isTail (UInt8.ofNat (n % 64 + 128)) = true := by
  rw [isTail_iff, UInt8.toNat_ofNat']
  omega

/-- The encoding of a character announces its width and decodes to it. -/
theorem decode?_encode (c : Char) : ∃ lead rest, String.utf8EncodeChar c = lead :: rest ∧
    width lead = (String.utf8EncodeChar c).length ∧ decode? (String.utf8EncodeChar c) = some c := by
  have hValid : c.val.toNat.isValidChar := c.valid
  simp only [Nat.isValidChar] at hValid
  have hScalar {code : Nat} := @scalar?_eq_some c code
  rw [String.utf8EncodeChar]
  generalize c.val.toNat = v at *
  split
  next h =>
    have hLead : width (UInt8.ofNat v) = 1 := by
      rw [width_eq, UInt8.toNat_ofNat']
      repeat' split
      all_goals omega
    refine ⟨_, _, rfl, by simpa using hLead, ?_⟩
    rw [decode?, if_pos hLead]
    exact hScalar (by rw [UInt8.toNat_ofNat']; omega)
  next =>
  split
  next h =>
    have hLead : width (UInt8.ofNat (v / 64 % 32 + 192)) = 2 := by
      rw [width_eq, UInt8.toNat_ofNat']
      repeat' split
      all_goals omega
    have hSecond : isSecond (UInt8.ofNat (v / 64 % 32 + 192)) (UInt8.ofNat (v % 64 + 128)) = true := by
      rw [isSecond_iff]
      simp only [UInt8.toNat_ofNat']
      omega
    refine ⟨_, _, rfl, by simpa using hLead, ?_⟩
    refine (if_pos ⟨hLead, hSecond⟩).trans (hScalar ?_)
    rw [tailBits_ofNat, UInt8.toNat_ofNat']
    omega
  next =>
  split
  next h =>
    have hLead : width (UInt8.ofNat (v / 4096 % 16 + 224)) = 3 := by
      rw [width_eq, UInt8.toNat_ofNat']
      repeat' split
      all_goals omega
    have hSecond : isSecond (UInt8.ofNat (v / 4096 % 16 + 224)) (UInt8.ofNat (v / 64 % 64 + 128)) = true := by
      rw [isSecond_iff]
      simp only [UInt8.toNat_ofNat']
      omega
    refine ⟨_, _, rfl, by simpa using hLead, ?_⟩
    refine (if_pos ⟨hLead, hSecond, isTail_ofNat v⟩).trans (hScalar ?_)
    simp only [tailBits_ofNat, UInt8.toNat_ofNat']
    omega
  next h =>
    have hLead : width (UInt8.ofNat (v / 262144 % 8 + 240)) = 4 := by
      rw [width_eq, UInt8.toNat_ofNat']
      repeat' split
      all_goals omega
    have hSecond : isSecond (UInt8.ofNat (v / 262144 % 8 + 240)) (UInt8.ofNat (v / 4096 % 64 + 128)) = true := by
      rw [isSecond_iff]
      simp only [UInt8.toNat_ofNat']
      omega
    refine ⟨_, _, rfl, by simpa using hLead, ?_⟩
    refine (if_pos ⟨hLead, hSecond, isTail_ofNat (v / 64), isTail_ofNat v⟩).trans (hScalar ?_)
    simp only [tailBits_ofNat, UInt8.toNat_ofNat']
    omega

end Utf8

namespace Source

variable {bytes : List UInt8} {pos : Nat}

theorem decodeAt_encode {c : Char} {rest : List UInt8} (h : bytes.drop pos = String.utf8EncodeChar c ++ rest) :
    ∃ d, decodeAt bytes pos = some d ∧ d.char = c ∧ d.width = (String.utf8EncodeChar c).length := by
  obtain ⟨lead, tail, hCons, hWidth, hDecode⟩ := Utf8.decode?_encode c
  have hPos : 0 < Utf8.width lead := by rw [hWidth, hCons]; simp
  refine ⟨⟨c, Utf8.width lead, hPos⟩, ?_, rfl, hWidth⟩
  have hTake : (lead :: (tail ++ rest)).take (Utf8.width lead) = String.utf8EncodeChar c := by
    rw [← List.cons_append, ← hCons, hWidth, List.take_left]
  rw [hCons, List.cons_append] at h
  simp only [decodeAt, h, hTake, hDecode, hPos, dif_pos]

end Source

/-- From `pos` on the bytes are those of some characters. -/
def WellFormed (bytes : List UInt8) (pos : Nat) : Prop := ∃ text, bytes.drop pos = Utf8.encode text

theorem wellFormed_of_isBoundary {text : List Char} {pos : Nat} (h : Utf8.IsBoundary text pos) :
    WellFormed (Utf8.encode text) pos := by
  obtain ⟨front, back, rfl, rfl⟩ := h
  exact ⟨back, by rw [Utf8.encode_append, List.drop_left]⟩

/-- A character of well-formed bytes has its own bytes, and what follows is well-formed. -/
theorem WellFormed.next {bytes : List UInt8} {pos : Nat} {d : Decoded} (h : WellFormed bytes pos)
    (hd : Source.decodeAt bytes pos = some d) : d.width = (String.utf8EncodeChar d.char).length ∧
      WellFormed bytes (pos + d.width) ∧
      bytes.drop pos = String.utf8EncodeChar d.char ++ bytes.drop (pos + d.width) := by
  obtain ⟨chars, hChars⟩ := h
  cases chars with
  | nil =>
    rw [Utf8.encode_nil, List.drop_eq_nil_iff] at hChars
    rw [Source.decodeAt_eq_none.mpr hChars] at hd
    cases hd
  | cons c chars =>
    rw [Utf8.encode_cons] at hChars
    obtain ⟨d', hd', rfl, hWidth⟩ := Source.decodeAt_encode hChars
    obtain rfl := Option.some.inj (hd.symm.trans hd')
    have hRest : bytes.drop (pos + d.width) = Utf8.encode chars := by
      rw [← List.drop_drop, hChars, hWidth, List.drop_left]
    exact ⟨hWidth, ⟨chars, hRest⟩, by rw [hChars, hRest]⟩

namespace Spans

variable {bytes : List UInt8} {pos stop : Nat} {text : List Char}

theorem of_encode {rest : List UInt8} (h : bytes.drop pos = Utf8.encode text ++ rest) :
    Spans bytes pos text (pos + (Utf8.encode text).length) := by
  induction text generalizing pos with
  | nil => exact .nil pos
  | cons c text ih =>
    rw [Utf8.encode_cons, List.append_assoc] at h
    obtain ⟨d, hd, rfl, hWidth⟩ := Source.decodeAt_encode h
    rw [Utf8.encode_cons, List.length_append, ← hWidth, ← Nat.add_assoc]
    refine .cons hd (ih ?_)
    rw [← List.drop_drop, h, hWidth, List.drop_left]

theorem encode_eq (h : Spans bytes pos text stop) (hBytes : WellFormed bytes pos) :
    stop = pos + (Utf8.encode text).length ∧ ∃ rest, bytes.drop pos = Utf8.encode text ++ rest := by
  induction h with
  | nil => exact ⟨rfl, _, rfl⟩
  | @cons pos stop d text hd _ ih =>
    obtain ⟨hWidth, hRest, hEncode⟩ := hBytes.next hd
    obtain ⟨hStop, rest, hText⟩ := ih hRest
    refine ⟨by rw [hStop, Utf8.encode_cons, List.length_append, hWidth, Nat.add_assoc], rest, ?_⟩
    rw [hEncode, hText, Utf8.encode_cons, List.append_assoc]

end Spans
end Reparse
