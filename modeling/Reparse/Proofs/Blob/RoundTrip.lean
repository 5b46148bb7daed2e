import Reparse.Proofs.Blob.Framing
import Reparse.Proofs.Table
/-!
# Compiled tables read back

What the writer of a part puts down is what the reader of that part takes, whatever follows. Counts are checked
against what is left, so the elements that a count announces have to take a byte or more each.
-/
namespace Reparse.Blob
namespace Reader

variable {α β : Type} {m read : Reader α} {f : α → Reader β} {write : α → Bytes} {x y : Bytes}

/-- The reader takes the bytes `x` for `a`. -/
def Reads (read : Reader α) (x : Bytes) (a : α) : Prop :=
  ∀ rest offset, read ⟨x ++ rest, offset⟩ = .ok (a, ⟨rest, offset + x.length⟩)

theorem reads_pure (a : α) : Reads (pure a) [] a := by
  intro rest offset
  rfl

theorem Reads.bind {a : α} {b : β} (hm : Reads m x a) (hf : Reads (f a) y b) : Reads (m >>= f) (x ++ y) b := by
  intro rest offset
  rw [List.append_assoc, bind_of_ok (hm (y ++ rest) offset), hf, List.length_append, Nat.add_assoc]

theorem Reads.map {a : α} {b : β} (hm : Reads m x a) (hf : f a = pure b) : Reads (m >>= f) x b := by
  intro rest offset
  rw [bind_of_ok (hm rest offset), hf]
  rfl

/-! ## Words -/

theorem reads_take (x : Bytes) : Reads (take x.length) x x := by
  intro rest offset
  apply take_eq_ok.mpr
  rw [List.take_left, List.drop_left, List.length_append]
  exact ⟨Nat.le_add_right _ _, rfl, rfl⟩

theorem reads_byte (b : UInt8) : Reads byte [b] b := (reads_take [b]).map rfl

theorem word16_bytes (n : UInt16) : n.toUInt8.toUInt16 ||| ((n >>> 8).toUInt8.toUInt16 <<< 8) = n := by
  have hHigh (i : Nat) (hi : 16 ≤ i) : n.toNat.testBit i = false :=
    Nat.testBit_lt_two_pow (Nat.lt_of_lt_of_le n.toNat_lt (Nat.pow_le_pow_right (by decide) hi))
  apply UInt16.toNat_inj.mp
  apply Nat.eq_of_testBit_eq
  intro i
  change ((n.toNat % 2 ^ 8) ||| ((n.toNat >>> 8 % 2 ^ 8) <<< 8 % 2 ^ 16)).testBit i = _
  simp only [Nat.testBit_or, Nat.testBit_shiftLeft, Nat.testBit_shiftRight, Nat.testBit_mod_two_pow]
  grind

theorem reads_word16 (n : UInt16) : Reads word16 (Blob.word16 n) n :=
  (reads_take (Blob.word16 n)).map (congrArg pure (word16_bytes n))

theorem word32_bytes (n : UInt32) : n.toUInt8.toUInt32 ||| ((n >>> 8).toUInt8.toUInt32 <<< 8) |||
    ((n >>> 16).toUInt8.toUInt32 <<< 16) ||| ((n >>> 24).toUInt8.toUInt32 <<< 24) = n := by
  have hHigh (i : Nat) (hi : 32 ≤ i) : n.toNat.testBit i = false :=
    Nat.testBit_lt_two_pow (Nat.lt_of_lt_of_le n.toNat_lt (Nat.pow_le_pow_right (by decide) hi))
  apply UInt32.toNat_inj.mp
  apply Nat.eq_of_testBit_eq
  intro i
  change ((n.toNat % 2 ^ 8) ||| ((n.toNat >>> 8 % 2 ^ 8) <<< 8 % 2 ^ 32) |||
    ((n.toNat >>> 16 % 2 ^ 8) <<< 16 % 2 ^ 32) ||| ((n.toNat >>> 24 % 2 ^ 8) <<< 24 % 2 ^ 32)).testBit i = _
  simp only [Nat.testBit_or, Nat.testBit_shiftLeft, Nat.testBit_shiftRight, Nat.testBit_mod_two_pow]
  grind

theorem reads_word32 (n : UInt32) : Reads word32 (Blob.word32 n) n :=
  (reads_take (Blob.word32 n)).map (congrArg pure (word32_bytes n))

/-! ## Lists -/

/-- A count stands if what it announces takes as many bytes. -/
theorem Reads.count {f : Nat → Reader β} {n : Nat} {b : β} (hCount : n < 2 ^ 32) (hLength : n ≤ y.length)
    (hf : Reads (f n) y b) : Reads (Reader.count >>= f) (Blob.word32 n.toUInt32 ++ y) b := by
  have hNat : n.toUInt32.toNat = n := Nat.mod_eq_of_lt hCount
  intro rest offset
  have hRead : Reader.count ⟨Blob.word32 n.toUInt32 ++ y ++ rest, offset⟩ = .ok (n, ⟨y ++ rest, offset + 4⟩) := by
    rw [count_eq, List.append_assoc, bind_of_ok (reads_word32 _ (y ++ rest) offset), hNat]
    apply if_pos
    rw [hasLength_iff, List.length_append]
    omega
  rw [bind_of_ok hRead, hf, List.length_append, Nat.add_assoc]
  rfl

theorem reads_manyFrom {items : List α} (h : ∀ a ∈ items, Reads read (write a) a) (done : Array α) :
    Reads (manyFrom read items.length done) (each write items) (done ++ items) := by
  induction items generalizing done with
  | nil =>
    rw [Array.appendList_nil]
    exact reads_pure done
  | cons a rest ih =>
    have hRest := ih (fun b hb => h b (List.mem_cons_of_mem a hb)) (done.push a)
    rw [Array.appendList_cons]
    exact (h a List.mem_cons_self).bind hRest

theorem reads_many {items : List α} {n : Nat} (h : ∀ a ∈ items, Reads read (write a) a) (hLength : items.length = n) :
    Reads (many read n) (each write items) items.toArray := by
  have hDone : (#[] : Array α) ++ items = items.toArray := by simp
  rw [← hLength, ← hDone]
  exact reads_manyFrom h #[]

theorem length_le_each {items : List α} (h : ∀ a, 0 < (write a).length) : items.length ≤ (each write items).length := by
  induction items with
  | nil => exact Nat.zero_le _
  | cons a rest ih =>
    have hFirst := h a
    rw [each, List.flatMap_cons, List.length_append, List.length_cons]
    rw [each] at ih
    omega

theorem reads_counted {items : List α} (h : ∀ a ∈ items, Reads read (write a) a) (hSize : ∀ a, 0 < (write a).length)
    (hCount : items.length < 2 ^ 32) : Reads (counted read) (counted32 write items) items.toArray :=
  .count hCount (length_le_each hSize) (reads_many h rfl)

theorem reads_counted16 {items : List α} (h : ∀ a ∈ items, Reads read (write a) a) (hCount : items.length < 2 ^ 16) :
    Reads (counted16 read) (Blob.counted16 write items) items := by
  have hNat : items.length = items.length.toUInt16.toNat := (Nat.mod_eq_of_lt hCount).symm
  exact (reads_word16 _).bind ((reads_many h hNat).map rfl)

theorem toList_loop (bytes : ByteArray) (i : Nat) (done : List UInt8) :
    ByteArray.toList.loop bytes i done = done.reverse ++ bytes.data.toList.drop i := by
  fun_induction ByteArray.toList.loop bytes i done with
  | case1 i done hLess ih =>
    have hByte : bytes.get! i = bytes.data.toList[i] := getElem!_pos bytes.data i hLess
    rw [ih, List.reverse_cons, List.append_assoc, List.drop_eq_getElem_cons hLess, hByte]
    rfl
  | case2 i done hLess =>
    rw [List.drop_eq_nil_of_le (Nat.not_lt.mp hLess), List.append_nil]

theorem toList_eq (bytes : ByteArray) : bytes.toList = bytes.data.toList := toList_loop bytes 0 []

theorem each_singleton (bytes : Bytes) : each (fun b => [b]) bytes = bytes := List.flatMap_singleton' bytes

theorem reads_text {s : String} (h : s.utf8ByteSize < 2 ^ 32) : Reads text (Blob.text s) s := by
  have hLength : s.toUTF8.toList.length = s.utf8ByteSize := by
    rw [toList_eq]
    rfl
  have hBytes : s.toUTF8.toList.toByteArray = s.toUTF8 := by
    apply ByteArray.ext
    rw [toList_eq, List.data_toByteArray, Array.toArray_toList]
  have hText : String.fromUTF8? s.toUTF8 = some s := dif_pos s.isValidUTF8
  rw [Blob.text, counted32, each_singleton]
  apply Reads.count (by omega) (Nat.le_refl _)
  apply (reads_take _).map
  rw [hBytes, hText]

/-! ## Parts of a table -/

theorem reads_symbol (s : Symbol) : Reads symbol (Blob.symbol s) s := (reads_word16 s.id).map rfl

theorem isSet_flags (a b c d : Bool) : isSet (flag 1 a ||| flag 2 b ||| flag 4 c ||| flag 8 d) 1 = a ∧
    isSet (flag 1 a ||| flag 2 b ||| flag 4 c ||| flag 8 d) 2 = b ∧
      isSet (flag 1 a ||| flag 2 b ||| flag 4 c ||| flag 8 d) 4 = c ∧
        isSet (flag 1 a ||| flag 2 b ||| flag 4 c ||| flag 8 d) 8 = d := by
  revert a b c d
  decide

theorem reads_symbolInfo {info : SymbolInfo} (h : info.name.utf8ByteSize < 2 ^ 32) :
    Reads symbolInfo (Blob.symbolInfo info) info := by
  refine (reads_text h).bind ((reads_byte _).map ?_)
  obtain ⟨hVisible, hNamed, hExtra, hRepetition⟩ := isSet_flags info.visible info.named info.extra info.repetition
  rw [hVisible, hNamed, hExtra, hRepetition]

theorem reads_fieldEntry (entry : UInt16 × FieldId) : Reads fieldEntry (Blob.fieldEntry entry) entry :=
  (reads_word16 entry.1).bind ((reads_word16 entry.2).map rfl)

theorem reads_production {p : Production} (h : p.fields.length < 2 ^ 16) :
    Reads production (Blob.production p) p := by
  rw [Blob.production, List.append_assoc]
  exact (reads_symbol p.lhs).bind ((reads_word16 p.childCount).bind
    ((reads_counted16 (fun entry _ => reads_fieldEntry entry) h).map rfl))

theorem reads_action (a : Option Action) : Reads action (Blob.action a) a := by
  cases a with
  | none => exact (reads_byte 0).map rfl
  | some a =>
    cases a with
    | shift state => exact (reads_byte 1).bind ((reads_word16 state).map rfl)
    | reduce id => exact (reads_byte 2).bind ((reads_word16 id).map rfl)
    | accept => exact (reads_byte 3).map rfl

theorem reads_goto (a : Option StateId) : Reads goto (Blob.goto a) a := by
  cases a with
  | none => exact (reads_byte 0).map rfl
  | some state => exact (reads_byte 1).bind ((reads_word16 state).map rfl)

theorem reads_character (c : Char) : Reads character (Blob.word32 c.val) c :=
  (reads_word32 c.val).map (dif_pos c.valid)

theorem reads_charRange (r : CharRange) : Reads charRange (Blob.charRange r) r :=
  (reads_character r.1).bind ((reads_character r.2).map rfl)

theorem reads_lexNode {node : LexNode} (h : ∀ cls next, node = .chars cls next → cls.ranges.size < 2 ^ 32) :
    Reads lexNode (Blob.lexNode node) node := by
  cases node with
  | chars cls next =>
    have hNegated : (flag 1 cls.negated != 0) = cls.negated := by
      cases cls.negated
      · rfl
      · rfl
    have hRanges := reads_counted (fun r _ => reads_charRange r) (fun _ => Nat.succ_pos _) (h cls next rfl)
    rw [Blob.lexNode, List.append_assoc]
    refine (reads_byte 0).bind ((reads_byte _).bind ((reads_word32 next).bind (hRanges.map ?_)))
    rw [hNegated]
  | split a b => exact (reads_byte 1).bind ((reads_word32 a).bind ((reads_word32 b).map rfl))
  | accept s => exact (reads_byte 2).bind ((reads_symbol s).map rfl)

theorem isSet_tokenFlags (a b c : Bool) : isSet (flag 1 a ||| flag 2 b ||| flag 4 c) 1 = a ∧
    isSet (flag 1 a ||| flag 2 b ||| flag 4 c) 2 = b ∧ isSet (flag 1 a ||| flag 2 b ||| flag 4 c) 4 = c := by
  revert a b c
  decide

theorem reads_tokenLex (lex : TokenLex) : Reads (tokenLex formatVersion) (Blob.tokenLex lex) lex := by
  refine (reads_byte _).bind ((reads_word32 _).map ?_)
  obtain ⟨hStart, hLiteral, hKeyword⟩ := isSet_tokenFlags lex.start.isSome lex.literal lex.keyword
  rw [hStart, hLiteral, hKeyword]
  obtain ⟨start, literal, keyword⟩ := lex
  cases start with
  | none => rfl
  | some node => rfl

theorem reads_wordToken {word : Option Symbol} (h : word ≠ some .eof) :
    Reads (wordToken formatVersion) (Blob.symbol (word.getD .eof)) word := by
  refine (reads_symbol _).map ?_
  cases word with
  | none => rfl
  | some s => exact congrArg pure (if_neg fun hEof => h (congrArg some hEof))

theorem reads_header : Reads header Blob.header formatVersion := by
  rw [Blob.header, List.append_assoc]
  exact (reads_take magic).bind ((reads_word16 formatVersion).bind ((reads_word16 0).map rfl))

end Reader

/-- What the counts and the zero that stands for no word token have room for. -/
structure Writable (t : Table) : Prop where
  word : t.word ≠ some .eof
  extras : t.extras.length < 2 ^ 16
  externals : t.externals.length < 2 ^ 16
  mapped : ∀ p ∈ t.productions, p.fields.length < 2 ^ 16
  name : t.name.utf8ByteSize < 2 ^ 32
  symbolNames : ∀ info ∈ t.symbols, info.name.utf8ByteSize < 2 ^ 32
  fieldNames : ∀ name ∈ t.fields, name.utf8ByteSize < 2 ^ 32
  fields : t.fields.size < 2 ^ 32
  productions : t.productions.size < 2 ^ 32
  lexNodes : t.lexNodes.size < 2 ^ 32
  ranges : ∀ cls next, .chars cls next ∈ t.lexNodes → cls.ranges.size < 2 ^ 32

namespace Reader

theorem reads_table {t : Table} (hValid : t.Valid) (h : Writable t) :
    Reads versioned (encode t) (t, formatVersion) := by
  have hSymbols : Reads (counted symbolInfo) (counted32 Blob.symbolInfo t.symbols.toList) t.symbols :=
    reads_counted (fun info hInfo => reads_symbolInfo (h.symbolNames info (Array.mem_toList_iff.mp hInfo)))
      (fun _ => Nat.succ_pos _) (Nat.lt_trans hValid.symbols_lt (by decide))
  have hFields : Reads (counted text) (counted32 Blob.text t.fields.toList) t.fields :=
    reads_counted (fun name hName => reads_text (h.fieldNames name (Array.mem_toList_iff.mp hName)))
      (fun _ => Nat.succ_pos _) h.fields
  have hProductions : Reads (counted production) (counted32 Blob.production t.productions.toList) t.productions :=
    reads_counted (fun p hp => reads_production (h.mapped p (Array.mem_toList_iff.mp hp)))
      (fun _ => Nat.succ_pos _) h.productions
  have hLexNodes : Reads (counted lexNode) (counted32 Blob.lexNode t.lexNodes.toList) t.lexNodes :=
    reads_counted (fun node hNode => reads_lexNode fun cls next hEq => h.ranges cls next (by
      rw [← hEq]
      exact Array.mem_toList_iff.mp hNode)) (fun node => by cases node <;> exact Nat.succ_pos _) h.lexNodes
  have hActions : Reads (many action (t.stateCount.toNat * t.tokenCount.toNat)) (each Blob.action t.actions.toList) t.actions :=
    reads_many (fun a _ => reads_action a) hValid.size_actions
  have hGotos : Reads (many goto (t.stateCount.toNat * (t.symbols.size - t.tokenCount.toNat)))
      (each Blob.goto t.gotos.toList) t.gotos :=
    reads_many (fun a _ => reads_goto a) hValid.size_gotos
  have hTokenLex : Reads (many (tokenLex formatVersion) t.tokenCount.toNat) (each Blob.tokenLex t.tokenLex.toList)
      t.tokenLex :=
    reads_many (fun lex _ => reads_tokenLex lex) hValid.size_tokenLex
  simp only [encode, List.append_assoc]
  refine reads_header.bind (Reads.map ?_ rfl)
  refine (reads_text h.name).bind (hSymbols.bind ((reads_word16 t.tokenCount).bind ?_))
  dsimp only
  rw [if_neg (Nat.not_lt.mpr hValid.tokens_le)]
  refine hFields.bind (hProductions.bind ((reads_word16 t.stateCount).bind ?_))
  refine hActions.bind (hGotos.bind (hLexNodes.bind (hTokenLex.bind ?_)))
  have hExtras := reads_counted16 (fun s _ => reads_symbol s) h.extras
  have hExternals := reads_counted16 (fun s _ => reads_symbol s) h.externals
  exact hExtras.bind (hExternals.bind ((reads_symbol t.start).bind ((reads_wordToken h.word).map rfl)))

end Reader

theorem decode_encode_of_writable {t : Table} (hValid : t.validate = .ok ()) (h : Writable t) :
    decode (encode t) = .ok (t, formatVersion) := by
  have hRead := Reader.reads_table (Table.valid_of_validate hValid) h [] 0
  rw [List.append_nil] at hRead
  exact decode_eq_ok.mpr ⟨⟨_, hRead⟩, hValid⟩

/-! ## What is read has room -/

namespace Reader

variable {α β : Type} {m read : Reader α} {f : α → Reader β} {P : α → Prop} {Q : β → Prop}

/-- Whatever the reader answers has the property. -/
def Yields (read : Reader α) (P : α → Prop) : Prop := ∀ c a c', read c = .ok (a, c') → P a

theorem yields_pure {a : α} (h : P a) : Yields (pure a) P := by
  intro c b c' hRead
  cases hRead
  exact h

theorem yields_throw (e : LoadError) : Yields (throw e) P := by
  intro c a c' hRead
  cases hRead

theorem yields_any : Yields m fun _ => True := fun _ _ _ _ => trivial

theorem Yields.bind (hm : Yields m P) (hf : ∀ a, P a → Yields (f a) Q) : Yields (m >>= f) Q := by
  intro c b c' hRead
  obtain ⟨a, mid, hFirst, hSecond⟩ := bind_eq_ok hRead
  exact hf a (hm c a mid hFirst) mid b c' hSecond

theorem yields_count : Yields count (· < 2 ^ 32) := by
  rw [count_eq]
  refine (yields_any (m := word32)).bind fun n _ => ?_
  intro c a c' hRead
  dsimp only at hRead
  split at hRead
  · cases hRead
    exact n.toNat_lt
  · cases hRead

theorem yields_manyFrom (h : Yields read P) (n : Nat) (done : Array α) (hDone : ∀ a ∈ done, P a) :
    Yields (manyFrom read n done) fun items => (∀ a ∈ items, P a) ∧ items.size = done.size + n := by
  induction n generalizing done with
  | zero => exact yields_pure ⟨hDone, rfl⟩
  | succ n ih =>
    refine h.bind fun a ha => ?_
    have hRest := ih (done.push a) (by
      intro b hb
      rcases Array.mem_push.mp hb with hb | rfl
      · exact hDone b hb
      · exact ha)
    rwa [Array.size_push, Nat.add_right_comm] at hRest

theorem yields_many (h : Yields read P) (n : Nat) :
    Yields (many read n) fun items => (∀ a ∈ items, P a) ∧ items.size = n := by
  have hItems := yields_manyFrom h n #[] (fun a ha => absurd ha (Array.not_mem_empty a))
  rwa [Array.size_empty, Nat.zero_add] at hItems

theorem yields_counted (h : Yields read P) :
    Yields (counted read) fun items => (∀ a ∈ items, P a) ∧ items.size < 2 ^ 32 := by
  refine yields_count.bind fun n hn => ?_
  intro c items c' hRead
  obtain ⟨hItems, rfl⟩ := yields_many h n c items c' hRead
  exact ⟨hItems, hn⟩

theorem yields_counted16 : Yields (counted16 read) fun items => items.length < 2 ^ 16 := by
  refine yields_any.bind fun n _ => (yields_many yields_any n.toNat).bind fun items hItems => yields_pure ?_
  rw [Array.length_toList, hItems.2]
  exact n.toNat_lt

theorem yields_text : Yields text fun s => s.utf8ByteSize < 2 ^ 32 := by
  refine yields_count.bind fun n hn => ?_
  have hTake : Yields (take n) fun bytes => bytes.length < 2 ^ 32 := by
    intro c bytes c' hRead
    obtain ⟨hLength, rfl, -⟩ := take_eq_ok.mp hRead
    rwa [List.length_take_of_le hLength]
  refine hTake.bind fun bytes hBytes => ?_
  split
  next s hText =>
    apply yields_pure
    rw [String.fromUTF8?] at hText
    split at hText
    next hUtf8 =>
      cases hText
      change bytes.toByteArray.size < 2 ^ 32
      rwa [List.size_toByteArray]
    next => cases hText
  next => exact yields_throw _

theorem yields_production : Yields production fun p => p.fields.length < 2 ^ 16 :=
  yields_any.bind fun _ _ => yields_any.bind fun _ _ => yields_counted16.bind fun _ hFields => yields_pure hFields

theorem yields_symbolInfo : Yields symbolInfo fun info => info.name.utf8ByteSize < 2 ^ 32 :=
  yields_text.bind fun _ hName => yields_any.bind fun _ _ => yields_pure hName

theorem yields_lexNode : Yields lexNode fun node => ∀ cls next, node = .chars cls next → cls.ranges.size < 2 ^ 32 := by
  refine yields_any.bind fun tag _ => ?_
  split
  · refine yields_any.bind fun _ _ => yields_any.bind fun _ _ => ?_
    refine (yields_counted yields_any).bind fun ranges hRanges => yields_pure ?_
    intro cls next hEq
    cases hEq
    exact hRanges.2
  · exact yields_any.bind fun _ _ => yields_any.bind fun _ _ => yields_pure fun _ _ hEq => by cases hEq
  · exact yields_any.bind fun _ _ => yields_pure fun _ _ hEq => by cases hEq
  · exact yields_throw _

theorem yields_wordToken (version : UInt16) : Yields (wordToken version) fun word => word ≠ some .eof := by
  rw [wordToken]
  split
  · refine yields_any.bind fun s _ => yields_pure ?_
    split
    next => exact (Option.some_ne_none _).symm
    next hNot => exact fun hEof => hNot (Option.some.inj hEof)
  · exact yields_pure (Option.some_ne_none _).symm

theorem yields_table (version : UInt16) : Yields (table version) Writable := by
  refine yields_text.bind fun name hName => (yields_counted yields_symbolInfo).bind fun symbols hSymbols =>
    yields_any.bind fun tokenCount _ => ?_
  have hRest : Yields (do
      let fields ← counted text
      let productions ← counted production
      let stateCount ← word16
      let actions ← many action (stateCount.toNat * tokenCount.toNat)
      let gotos ← many goto (stateCount.toNat * (symbols.size - tokenCount.toNat))
      let lexNodes ← counted lexNode
      let tokenLex ← many (tokenLex version) tokenCount.toNat
      let extras ← counted16 symbol
      let externals ← counted16 symbol
      let start ← symbol
      let word ← wordToken version
      pure {
        name, symbols, tokenCount, fields, productions, stateCount, actions, gotos, lexNodes, tokenLex,
        extras, externals, start, word }) Writable :=
    (yields_counted yields_text).bind fun _ hFields => (yields_counted yields_production).bind fun _ hProductions =>
      yields_any.bind fun _ _ => yields_any.bind fun _ _ => yields_any.bind fun _ _ =>
      (yields_counted yields_lexNode).bind fun _ hNodes => yields_any.bind fun _ _ =>
      yields_counted16.bind fun _ hExtras => yields_counted16.bind fun _ hExternals =>
      yields_any.bind fun _ _ => (yields_wordToken version).bind fun _ hWord => yields_pure
        { word := hWord
          extras := hExtras
          externals := hExternals
          mapped := hProductions.1
          name := hName
          symbolNames := hSymbols.1
          fieldNames := hFields.1
          fields := hFields.2
          productions := hProductions.2
          lexNodes := hNodes.2
          ranges := fun cls next hMem => hNodes.1 _ hMem cls next rfl }
  dsimp only
  split
  · exact (yields_throw _ : Yields _ fun _ => True).bind fun _ _ => hRest
  · exact hRest

end Reader

/-- Whatever is read from bytes can be written. -/
theorem writable_of_decode {data : Bytes} {t : Table} {version : UInt16} (h : decode data = .ok (t, version)) :
    Writable t := by
  obtain ⟨⟨stop, hRead⟩, -⟩ := decode_eq_ok.mp h
  obtain ⟨_, _, -, hRest⟩ := Reader.bind_eq_ok hRead
  obtain ⟨_, _, hTable, hSame⟩ := Reader.bind_eq_ok hRest
  cases hSame
  exact Reader.yields_table _ _ _ _ hTable

/-- Decoding undoes encoding: a valid table that the counts have room for is decoded from its compiled form, with the
version that is written. Tables that were decoded have room, so they are encoded and decoded again without change. -/
theorem decode_encode : (∀ t : Table, t.validate = .ok () → Writable t → decode (encode t) = .ok (t, formatVersion)) ∧
    ∀ (data : Bytes) (t : Table) (version : UInt16), decode data = .ok (t, version) →
      decode (encode t) = .ok (t, formatVersion) ∧ (decode (encode t)).map (fun r => encode r.1) = .ok (encode t) := by
  refine ⟨fun t hValid h => decode_encode_of_writable hValid h, ?_⟩
  intro data t version h
  have hAgain := decode_encode_of_writable (decode_eq_ok.mp h).2 (writable_of_decode h)
  refine ⟨hAgain, ?_⟩
  rw [hAgain]
  rfl

theorem decode_encode_greeting : Table.greeting.validate = .ok () ∧ Writable .greeting ∧
    decode (encode .greeting) = .ok (.greeting, formatVersion) ∧
      (decode (encode .greeting)).map (fun r => encode r.1) = .ok (encode .greeting) := by
  have hValid : Table.greeting.validate = .ok () := by cbv
  have hWritable : Writable .greeting :=
    { word := (Option.some_ne_none _).symm
      extras := by decide
      externals := by decide
      mapped := by decide
      name := by decide
      symbolNames := by decide
      fieldNames := by decide
      fields := by decide
      productions := by decide
      lexNodes := by decide
      ranges := by
        intro cls next hMem
        simp only [Table.greeting, List.mem_toArray, List.mem_cons, LexNode.chars.injEq, reduceCtorEq, List.not_mem_nil,
          or_false, false_or] at hMem
        rcases hMem with ⟨rfl, -⟩ | ⟨rfl, -⟩
        · decide
        · decide }
  have hDecode := decode_encode.1 .greeting hValid hWritable
  exact ⟨hValid, hWritable, decode_encode.2 _ _ _ hDecode⟩

end Reparse.Blob
