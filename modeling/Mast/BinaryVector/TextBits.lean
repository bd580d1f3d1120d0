import Mast.BinaryVector.Parse
import Mathlib.Data.List.DropRight

/-!
# The bits a text encodes

What the loops of the factories collect. `binaryTextBits` and `hexTextBits` say which bits the characters of a text stand for; the loops keep them in whole bytes and one incomplete byte, aligned on the right while a binary text is read and on the left while a hexadecimal one is.
-/

namespace Mast

open BitPacking

namespace BinaryVector

/-- The bit an `x` stands for. -/
def dontCareBit : DontCare → Option Bool
  | .isError => none
  | .isZero => some false
  | .isOne => some true

def binaryCharBit (dontCare : DontCare) (c : Char) : Option Bool :=
  if c = '0' then some false
  else if c = '1' then some true
  else if c = 'x' ∨ c = 'X' then dontCareBit dontCare
  else none

def binaryTextBits (dontCare : DontCare) (text : Text) : List Bool :=
  text.filterMap (binaryCharBit dontCare)

def hexCharBits (dontCare : DontCare) (previousChar c : Char) : List Bool :=
  match hexDigitValue c with
  | some value => (byteBits value).drop 4
  | none =>
    if (c = 'x' ∨ c = 'X') ∧ ¬(previousChar = '\\' ∨ previousChar = '/') then
      (dontCareBit dontCare).elim [] (List.replicate 4)
    else []

/-- The bits of a hexadecimal text, given the character before it. -/
def hexTextBits (dontCare : DontCare) : Char → Text → List Bool
  | _, [] => []
  | previousChar, c :: rest => hexCharBits dontCare previousChar c ++ hexTextBits dontCare c rest

/-! ### The loops -/

/-- The bits read so far are those of the whole bytes, then those of the incomplete one. -/
def Reader.Holds (alignment : BitsAlignment) (reader : Reader) (l : List Bool) : Prop :=
  ∃ tail : List Bool, l = unpack reader.data ++ tail ∧ tail.length = reader.bitCount ∧
    reader.bitCount < 8 ∧ reader.usedBits = 8 * reader.data.length % uint32Size ∧
    byteBits reader.nextByte =
      match alignment with
      | .left => tail ++ List.replicate (8 - tail.length) false
      | .right => List.replicate (8 - tail.length) false ++ tail

theorem Reader.start_holds (alignment : BitsAlignment) : Reader.start.Holds alignment [] :=
  ⟨[], rfl, rfl, by decide, rfl, by cases alignment <;> rfl⟩

private theorem zipWith_or_zeros {bits : List Bool} {count : Nat} (hlength : bits.length = count) :
    List.zipWith or bits (List.replicate count false) = bits := by
  subst hlength
  induction bits with
  | nil => rfl
  | cons bit rest ih => simp [List.replicate_succ, ih]

private theorem zipWith_zeros_or {bits : List Bool} {count : Nat} (hlength : bits.length = count) :
    List.zipWith or (List.replicate count false) bits = bits := by
  rw [List.zipWith_comm_of_comm Bool.or_comm, zipWith_or_zeros hlength]

theorem Reader.Holds.completed (alignment : BitsAlignment) {data : List Byte} {usedBits : Nat}
    (hused : usedBits = 8 * data.length % uint32Size) (byte : Byte) :
    Reader.Holds alignment ⟨data ++ [byte], (usedBits + 8) % uint32Size, 0, 0⟩
      (unpack data ++ byteBits byte) := by
  have hzero : byteBits 0 = List.replicate 8 false := rfl
  refine ⟨[], ?_, rfl, Nat.zero_lt_succ 7, ?_, by cases alignment <;> exact hzero⟩
  · simp only [unpack_append, unpack_cons, unpack_nil, List.append_nil]
  · simp only [List.length_append, List.length_singleton, hused]
    unfold uint32Size
    omega

theorem Reader.Holds.appendBit {reader : Reader} {l : List Bool} (hreader : reader.Holds .right l)
    {byte : Byte} {bit : Bool} (hbyte : byteBits byte = List.replicate 7 false ++ [bit]) :
    (reader.appendBit byte).Holds .right (l ++ [bit]) := by
  obtain ⟨tail, rfl, hlength, hlt, hused, hnext⟩ := hreader
  simp only at hnext
  have hbits : byteBits (reader.nextByte <<< 1 ||| byte) =
      List.replicate (7 - tail.length) false ++ (tail ++ [bit]) := by
    have hsplit : List.replicate (8 - tail.length) false =
        false :: List.replicate (7 - tail.length) false := by
      rw [← List.replicate_succ]
      congr 1
      omega
    have hseven : (List.replicate (7 - tail.length) false ++ tail).length = 7 := by
      rw [List.length_append, List.length_replicate]
      omega
    rw [byteBits_or, byteBits_shiftLeft _ (by decide), hnext, hbyte, hsplit, List.cons_append,
      List.drop_one, List.tail_cons, List.zipWith_append (by rw [hseven, List.length_replicate]),
      zipWith_or_zeros hseven, List.append_assoc]
    rfl
  unfold Reader.appendBit
  by_cases hfull : reader.bitCount + 1 = 8
  · have htail : 7 - tail.length = 0 := by omega
    have hcompleted := Reader.Holds.completed .right hused
      (reader.nextByte <<< 1 ||| byte)
    rw [hbits, htail, List.replicate_zero, List.nil_append, ← List.append_assoc] at hcompleted
    rwa [if_pos hfull]
  · have hcount : 8 - (tail.length + 1) = 7 - tail.length := by omega
    rw [if_neg hfull]
    refine ⟨tail ++ [bit], List.append_assoc _ _ _, ?_, ?_, hused, ?_⟩
    · rw [List.length_append, hlength, List.length_singleton]
    · change reader.bitCount + 1 < 8
      omega
    · simp only [hbits, List.length_append, List.length_singleton, hcount]

theorem Reader.Holds.appendNibble {reader : Reader} {l : List Bool}
    (hreader : reader.Holds .left l) (haligned : reader.bitCount % 4 = 0) {value : Byte}
    {nibble : List Bool} (hnibble : nibble.length = 4)
    (hvalue : byteBits value = List.replicate 4 false ++ nibble) :
    (reader.appendNibble value).Holds .left (l ++ nibble) ∧
      (reader.appendNibble value).bitCount % 4 = 0 := by
  obtain ⟨tail, rfl, hlength, hlt, hused, hnext⟩ := hreader
  simp only at hnext
  unfold Reader.appendNibble
  by_cases hfull : reader.bitCount + 4 = 8
  · have htail : tail.length = 4 := by omega
    have hbits : byteBits (reader.nextByte ||| value) = tail ++ nibble := by
      rw [byteBits_or, hnext, hvalue, htail, List.zipWith_append (by simpa using htail),
        zipWith_or_zeros htail, zipWith_zeros_or hnibble]
    have hcompleted := Reader.Holds.completed .left hused
      (reader.nextByte ||| value)
    rw [hbits, ← List.append_assoc] at hcompleted
    simp only [if_pos hfull]
    exact ⟨hcompleted, trivial⟩
  · have hempty : tail = [] := List.length_eq_zero_iff.mp (by omega)
    subst hempty
    have hcount : reader.bitCount = 0 := hlength.symm
    have hbits : byteBits ((reader.nextByte ||| value) <<< 4) =
        nibble ++ List.replicate 4 false := by
      have hzero : byteBits reader.nextByte = List.replicate 4 false ++ List.replicate 4 false :=
        hnext
      rw [byteBits_shiftLeft _ (by decide), byteBits_or, hzero, hvalue,
        List.zipWith_append (by simp), zipWith_zeros_or hnibble, List.drop_left' (by simp)]
    simp only [if_neg hfull]
    refine ⟨⟨nibble, by rw [List.append_nil], ?_, ?_, hused, ?_⟩, ?_⟩
    · rw [hnibble, hcount]
    · change reader.bitCount + 4 < 8
      omega
    · simp only [hbits, hnibble]
    · omega

theorem readBinaryChar_holds {dontCare : DontCare} {previousChar c : Char} {reader reader' : Reader}
    {l : List Bool} (hreader : reader.Holds .right l)
    (hread : readBinaryChar dontCare previousChar c reader = .ok reader') :
    reader'.Holds .right (l ++ (binaryCharBit dontCare c).toList) := by
  have hzero : byteBits 0 = List.replicate 7 false ++ [false] := rfl
  have hone : byteBits 1 = List.replicate 7 false ++ [true] := rfl
  unfold readBinaryChar at hread
  unfold binaryCharBit
  split_ifs at hread ⊢
  · injection hread with hread
    exact hread ▸ hreader.appendBit hzero
  · injection hread with hread
    exact hread ▸ hreader.appendBit hone
  · cases dontCare with
    | isError => simp at hread
    | isZero =>
      injection hread with hread
      exact hread ▸ hreader.appendBit hzero
    | isOne =>
      injection hread with hread
      exact hread ▸ hreader.appendBit hone
  all_goals
    injection hread with hread
    simpa [hread] using hreader

theorem readBinaryChars_holds {dontCare : DontCare} {text : Text} {previousChar : Char}
    {reader reader' : Reader} {l : List Bool} (hreader : reader.Holds .right l)
    (hread : readBinaryChars dontCare previousChar text reader = .ok reader') :
    reader'.Holds .right (l ++ binaryTextBits dontCare text) := by
  induction text generalizing previousChar reader l with
  | nil =>
    injection hread with hread
    simpa [hread, binaryTextBits] using hreader
  | cons c rest ih =>
    unfold readBinaryChars at hread
    split at hread
    · rename_i next hchar
      have hrest := ih (readBinaryChar_holds hreader hchar) hread
      have hbits : binaryTextBits dontCare (c :: rest) =
          (binaryCharBit dontCare c).toList ++ binaryTextBits dontCare rest := by
        unfold binaryTextBits
        cases hbit : binaryCharBit dontCare c <;> simp [hbit]
      rwa [hbits, ← List.append_assoc]
    · simp at hread

theorem hexDigitValue_bits {c : Char} {value : Byte} (hvalue : hexDigitValue c = some value) :
    byteBits value = List.replicate 4 false ++ (byteBits value).drop 4 := by
  unfold hexDigitValue at hvalue
  split at hvalue <;> first
    | (injection hvalue with hvalue; subst hvalue; rfl)
    | simp at hvalue

theorem readHexChar_holds {dontCare : DontCare} {previousChar c : Char} {reader reader' : Reader}
    {l : List Bool} (hreader : reader.Holds .left l) (haligned : reader.bitCount % 4 = 0)
    (hread : readHexChar dontCare previousChar c reader = .ok reader') :
    reader'.Holds .left (l ++ hexCharBits dontCare previousChar c) ∧ reader'.bitCount % 4 = 0 := by
  unfold readHexChar at hread
  unfold hexCharBits
  cases hvalue : hexDigitValue c with
  | some value =>
    simp only [hvalue] at hread ⊢
    injection hread with hread
    subst hread
    exact hreader.appendNibble haligned (by simp) (hexDigitValue_bits hvalue)
  | none =>
    have hnone : ¬((c = 'x' ∨ c = 'X') ∧ isIgnored c) := by
      rintro ⟨rfl | rfl, hignored⟩ <;> simp [isIgnored] at hignored
    simp only [hvalue] at hread ⊢
    split_ifs at hread with hignored hx hescaped
    · injection hread with hread
      subst hread
      rw [if_neg (fun hcond => hnone ⟨hcond.1, hignored⟩), List.append_nil]
      exact ⟨hreader, haligned⟩
    · injection hread with hread
      subst hread
      rw [if_neg (fun hcond => hcond.2 hescaped), List.append_nil]
      exact ⟨hreader, haligned⟩
    · rw [if_pos ⟨hx, hescaped⟩]
      cases dontCare with
      | isError => simp at hread
      | isZero =>
        injection hread with hread
        exact hread ▸ hreader.appendNibble haligned rfl rfl
      | isOne =>
        injection hread with hread
        exact hread ▸ hreader.appendNibble haligned rfl rfl

theorem readHexChars_holds {dontCare : DontCare} {text : Text} {previousChar : Char}
    {reader reader' : Reader} {l : List Bool} (hreader : reader.Holds .left l)
    (haligned : reader.bitCount % 4 = 0)
    (hread : readHexChars dontCare previousChar text reader = .ok reader') :
    reader'.Holds .left (l ++ hexTextBits dontCare previousChar text) := by
  induction text generalizing previousChar reader l with
  | nil =>
    injection hread with hread
    simpa [hread, hexTextBits] using hreader
  | cons c rest ih =>
    unfold readHexChars at hread
    split at hread
    · rename_i next hchar
      obtain ⟨hnext, haligned'⟩ := readHexChar_holds hreader haligned hchar
      rw [hexTextBits, ← List.append_assoc]
      exact ih hnext haligned' hread
    · simp at hread

/-! ### The factories -/

/-- The number of bits of a text is kept in 32 bits; the buffer holds all of them. -/
theorem createFromBinaryString_ok {text : Text} {p : SizeProperty} {dontCare : DontCare}
    {v : BinaryVector} (hcreate : createFromBinaryString text p dontCare = .ok v) :
    ∃ l, l = binaryTextBits dontCare (removeBasePrefix 'b' 'B' (text.dropWhile isBlank)) ∧
      v = ⟨pack l, l.length % uint32Size, p⟩ := by
  unfold createFromBinaryString at hcreate
  simp only at hcreate
  split at hcreate
  · simp at hcreate
  · rename_i reader hread
    obtain ⟨tail, hbits, hlength, hlt, hused, hnext⟩ :=
      readBinaryChars_holds (Reader.start_holds .right) hread
    simp only at hnext
    refine ⟨_, rfl, ?_⟩
    rw [List.nil_append] at hbits
    rw [hbits]
    split_ifs at hcreate with hrest
    · injection hcreate with hcreate
      rw [← hcreate]
      have hlast : byteBits (reader.nextByte <<< (8 - reader.bitCount)) =
          tail ++ List.replicate (8 - tail.length) false := by
        rw [byteBits_shiftLeft _ (by omega), hnext, hlength, List.drop_left' (by simp)]
      have hdata : reader.data ++ [reader.nextByte <<< (8 - reader.bitCount)] =
          pack (unpack reader.data ++ tail) := by
        refine eq_pack (8 - tail.length) ?_ (by omega)
        rw [unpack_append, unpack_cons, unpack_nil, List.append_nil, hlast, List.append_assoc]
      rw [hdata, hused, List.length_append, unpack_length, hlength, Nat.mod_add_mod]
    · injection hcreate with hcreate
      have hnone : tail = [] := List.length_eq_zero_iff.mp (by omega)
      rw [← hcreate, hnone, List.append_nil, pack_unpack, unpack_length, hused]

theorem createFromHexString_ok {text : Text} {p : SizeProperty} {dontCare : DontCare}
    {v : BinaryVector} (hcreate : createFromHexString text p dontCare = .ok v) :
    ∃ l, l = hexTextBits dontCare '\x00' (removeBasePrefix 'x' 'X' (text.dropWhile isBlank)) ∧
      v = ⟨pack l, l.length % uint32Size, p⟩ := by
  unfold createFromHexString at hcreate
  simp only at hcreate
  split at hcreate
  · simp at hcreate
  · rename_i reader hread
    obtain ⟨tail, hbits, hlength, hlt, hused, hnext⟩ :=
      readHexChars_holds (Reader.start_holds .left) rfl hread
    simp only at hnext
    refine ⟨_, rfl, ?_⟩
    rw [List.nil_append] at hbits
    rw [hbits]
    split_ifs at hcreate with hrest
    · injection hcreate with hcreate
      rw [← hcreate]
      have hdata : reader.data ++ [reader.nextByte] = pack (unpack reader.data ++ tail) := by
        refine eq_pack (8 - tail.length) ?_ (by omega)
        rw [unpack_append, unpack_cons, unpack_nil, List.append_nil, hnext, List.append_assoc]
      rw [hdata, hused, List.length_append, unpack_length, hlength, Nat.mod_add_mod]
    · injection hcreate with hcreate
      have hnone : tail = [] := List.length_eq_zero_iff.mp (by omega)
      rw [← hcreate, hnone, List.append_nil, pack_unpack, unpack_length, hused]

/-! ### Faults

A factory that refuses a text throws; it never leaves its buffers. -/

theorem readBinaryChar_defined (dontCare : DontCare) (previousChar c : Char) (reader : Reader) :
    readBinaryChar dontCare previousChar c reader ≠ .error .undefinedBehaviour := by
  unfold readBinaryChar
  split_ifs <;> cases dontCare <;> simp

theorem readBinaryChars_defined (dontCare : DontCare) (text : Text) (previousChar : Char)
    (reader : Reader) :
    readBinaryChars dontCare previousChar text reader ≠ .error .undefinedBehaviour := by
  induction text generalizing previousChar reader with
  | nil => simp [readBinaryChars]
  | cons c rest ih =>
    unfold readBinaryChars
    split
    · exact ih _ _
    · rename_i hchar
      exact fun hfault => readBinaryChar_defined dontCare previousChar c reader (hchar.trans hfault)

theorem createFromBinaryString_defined (text : Text) (p : SizeProperty) (dontCare : DontCare) :
    createFromBinaryString text p dontCare ≠ .error .undefinedBehaviour := by
  simp only [createFromBinaryString]
  split
  · rename_i hread
    exact fun hfault => readBinaryChars_defined _ _ _ _ (hread.trans (by simpa using hfault))
  · split_ifs <;> simp

theorem readHexChar_defined (dontCare : DontCare) (previousChar c : Char) (reader : Reader) :
    readHexChar dontCare previousChar c reader ≠ .error .undefinedBehaviour := by
  unfold readHexChar
  split
  · simp
  · split_ifs <;> cases dontCare <;> simp

theorem readHexChars_defined (dontCare : DontCare) (text : Text) (previousChar : Char)
    (reader : Reader) :
    readHexChars dontCare previousChar text reader ≠ .error .undefinedBehaviour := by
  induction text generalizing previousChar reader with
  | nil => simp [readHexChars]
  | cons c rest ih =>
    unfold readHexChars
    split
    · exact ih _ _
    · rename_i hchar
      exact fun hfault => readHexChar_defined dontCare previousChar c reader (hchar.trans hfault)

theorem createFromHexString_defined (text : Text) (p : SizeProperty) (dontCare : DontCare) :
    createFromHexString text p dontCare ≠ .error .undefinedBehaviour := by
  simp only [createFromHexString]
  split
  · rename_i hread
    exact fun hfault => readHexChars_defined _ _ _ _ (hread.trans (by simpa using hfault))
  · split_ifs <;> simp

private theorem appendDigit_defined (reader : DecReader) (digit : Nat) :
    reader.appendDigit digit ≠ .error .undefinedBehaviour := by
  unfold DecReader.appendDigit
  simp only
  split_ifs <;> simp

theorem readDecChar_defined (shown : Text) (c : Char) (reader : DecReader) :
    readDecChar shown c reader ≠ .error .undefinedBehaviour := by
  unfold readDecChar
  simp only
  by_cases hquote : reader.nextMustBeD ∧ c ≠ 'd' ∧ c ≠ 'D'
  · simp [hquote]
  · rw [if_neg hquote]
    cases decDigitValue c with
    | some digit => exact appendDigit_defined reader digit
    | none =>
      simp only
      split_ifs <;> first
        | exact appendDigit_defined _ 0
        | simp

theorem readDecChars_defined (shown text : Text) (reader : DecReader) :
    readDecChars shown text reader ≠ .error .undefinedBehaviour := by
  induction text generalizing reader with
  | nil => simp [readDecChars]
  | cons c rest ih =>
    unfold readDecChars
    split
    · exact ih _
    · rename_i hchar
      exact fun hfault => readDecChar_defined shown c reader (hchar.trans hfault)

theorem readUInt32_defined (text : Text) (value count : Nat) :
    readUInt32 text value count ≠ .error .undefinedBehaviour := by
  induction text generalizing value count with
  | nil => simp [readUInt32]
  | cons c rest ih =>
    unfold readUInt32
    cases decDigitValue c with
    | none => simp
    | some digit =>
      simp only
      split_ifs <;> first
        | exact ih _ _
        | simp

theorem toUInt32_defined (text : Text) : toUInt32 text ≠ .error .undefinedBehaviour := by
  simp only [toUInt32]
  by_cases hempty : trimLeft text = []
  · simp [hempty]
  · rw [if_neg hempty]
    split
    · rename_i hread
      exact fun hfault => readUInt32_defined _ _ _ (hread.trans (by simpa using hfault))
    · split_ifs <;> simp

theorem extractIclInfo_defined (inverted : Bool) (text : Text) :
    extractIclInfo inverted text ≠ .error .undefinedBehaviour := by
  unfold extractIclInfo
  split
  · simp
  · split
    · rename_i leading rest fault hread
      intro hfault
      split_ifs at hread
      exact toUInt32_defined _ (hread.trans (by simpa using hfault))
    · split_ifs <;> simp

theorem extractEncodingInfo_defined (firstChunk : Bool) {text : Text} (hempty : text ≠ []) :
    extractEncodingInfo firstChunk text ≠ .error .undefinedBehaviour := by
  unfold extractEncodingInfo
  split
  · exact absurd rfl hempty
  · simp only
    split_ifs <;> first
      | exact extractIclInfo_defined _ _
      | simp

theorem getNextChunk_defined (firstChunk : Bool) {text : Text} (htrimmed : trimLeft text = text)
    (hempty : text ≠ []) : getNextChunk firstChunk text ≠ .error .undefinedBehaviour := by
  unfold getNextChunk
  rw [htrimmed]
  split
  · rename_i hextract
    exact fun hfault =>
      extractEncodingInfo_defined firstChunk hempty (hextract.trans (by simpa using hfault))
  · split_ifs <;> simp

private theorem trimLeft_drop_chunk (text : Text) :
    trimLeft (text.drop (text.takeWhile fun c => !endsChunk c).length) =
      text.drop (text.takeWhile fun c => !endsChunk c).length := by
  have hdrop : text.drop (text.takeWhile fun c => !endsChunk c).length =
      text.dropWhile fun c => !endsChunk c := by
    have hleft : ((text.takeWhile fun c => !endsChunk c) ++
        text.dropWhile fun c => !endsChunk c).drop (text.takeWhile fun c => !endsChunk c).length =
        text.dropWhile fun c => !endsChunk c := List.drop_left
    rwa [List.takeWhile_append_dropWhile] at hleft
  have hhead := List.head?_dropWhile_not (fun c => !endsChunk c) text
  rw [hdrop]
  cases hrest : text.dropWhile fun c => !endsChunk c with
  | nil => rfl
  | cons c rest =>
    rw [hrest] at hhead
    apply List.dropWhile_cons_of_neg
    intro hblank
    rcases of_decide_eq_true hblank with rfl | rfl <;> simp [endsChunk] at hhead

theorem getNextChunk_trimmed {firstChunk : Bool} {text bitsChunk rest : Text} {info : EncodingInfo}
    (hnext : getNextChunk firstChunk text = .ok (info, bitsChunk, rest))
    (hbase : info.base ≠ .undefined) : trimLeft rest = rest := by
  unfold getNextChunk at hnext
  split at hnext
  · simp at hnext
  · rename_i info' encoded hextract
    split at hnext
    · rename_i hundefined
      injection hnext with hnext
      obtain ⟨rfl, -⟩ := Prod.mk.inj hnext
      exact absurd hundefined hbase
    · injection hnext with hnext
      obtain ⟨-, hnext⟩ := Prod.mk.inj hnext
      obtain ⟨-, hrest⟩ := Prod.mk.inj hnext
      rw [← hrest]
      split
      · exact List.dropWhile_idempotent _ _
      · exact trimLeft_drop_chunk encoded

theorem build_append64 (value : BitVec 64) (count : Nat) :
    (∃ fault, fault ≠ .undefinedBehaviour ∧
      build empty (append64 value count .right) = .error fault) ∨
      ∃ l : List Bool, l.length ≤ 64 ∧
        build empty (append64 value count .right) = .ok (ofBits l .notFixed) := by
  by_cases hrejects : count = 0 ∨ 64 < count
  · obtain ⟨fault, hfault, hrun⟩ : Rejects (append64 value count .right) empty :=
      @appendUInt_rejects .w64 count empty (.inr hrejects) value .right
    exact .inl ⟨fault, hfault, by rw [build, hrun]⟩
  · push Not at hrejects
    obtain ⟨added, hlength, hrun⟩ := appendUInt_ofBits (l := []) (p := .notFixed)
      (by omega) (show count ≤ UIntWidth.bits .w64 from hrejects.2) (by decide) (by rw [List.length_nil]; unfold uint32Size; omega)
      value .right
    refine .inr ⟨added, by omega, ?_⟩
    rw [List.nil_append] at hrun
    change build empty (appendUInt .w64 value count .right) = _
    rw [build, empty_eq_ofBits, hrun]

/-- A decimal number makes at most the 64 bits of the value it is parsed into. -/
theorem createFromDecString_cases (text : Text) (p : SizeProperty) :
    (∃ fault, fault ≠ .undefinedBehaviour ∧ createFromDecString text p = .error fault) ∨
      ∃ l q, l.length ≤ 64 ∧ createFromDecString text p = .ok (ofBits l q) := by
  simp only [createFromDecString]
  by_cases hempty : trimLeft text = []
  · exact .inr ⟨[], .notFixed, by decide, if_pos hempty⟩
  · rw [if_neg hempty]
    split
    · rename_i fault hread
      exact .inl ⟨fault, fun hfault => readDecChars_defined _ _ _ (hread.trans (by rw [hfault])), rfl⟩
    · rename_i reader hread
      by_cases hparsed : reader.parsedDigits
      · rw [if_neg (not_not.mpr hparsed)]
        generalize (if ¬reader.hasSize ∧ reader.value > uint32Size - 1 then 64
          else reader.bitsCount) = bitsCount
        rcases build_append64 (BitVec.ofNat 64 reader.value) (bitsCount % 256) with
          ⟨fault, hfault, happend⟩ | ⟨l, hlength, happend⟩
        · exact .inl ⟨fault, hfault, by rw [happend]⟩
        · rw [happend]
          have hproperty : { ofBits l .notFixed with sizeProperty := p } = ofBits l p := rfl
          simp only [hproperty]
          split
          · refine .inr ⟨l.map not, p, by rwa [List.length_map], ?_⟩
            rw [build, toggleBits_run (ofBits_wellFormed l p).exactBytes, bits_ofBits]
            rfl
          · exact .inr ⟨l, p, hlength, rfl⟩
      · rw [if_pos hparsed]
        exact .inl ⟨_, Fault.noConfusion, rfl⟩

end BinaryVector

end Mast
