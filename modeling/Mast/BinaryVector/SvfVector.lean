import Mast.BinaryVector.Parse
import Mast.BinaryVector.RightAligned
import Mast.Lib.Interleaved

/-!
# SVF texts

An `SVFVector` is the right aligned value of a vector in hexadecimal digits, always an even number of them. `cleanSvfString` reads other texts: it drops what separates digits, and completes or shortens them on the left to the number that the bits take.
-/

namespace Mast

open BitPacking Interleaving BinaryVector

structure SvfVector where
  data : Text
  usedBits : Nat
  deriving DecidableEq

namespace SvfVector

def byteDigits (byte : Byte) : Text := [hexNibble (byte >>> 4), hexNibble (byte &&& 0x0F)]

/-- `SVFVector(const BinaryVector&)`. -/
def ofBinaryVector (v : BinaryVector) : Except Fault SvfVector :=
  if v.usedBits = 0 then .ok ⟨[], 0⟩
  else
    let binVectorLsbBits := v.usedBits % 8
    let bytes :=
      if binVectorLsbBits = 0 then if v.data = [] then .error .undefinedBehaviour else .ok v.data
      else v.strandedBytes binVectorLsbBits
    bytes.map fun bytes => ⟨bytes.flatMap byteDigits, v.usedBits⟩

def charToNibble (aChar : Char) : Except Fault Byte :=
  match hexDigitValue aChar with
  | some value => .ok value
  | none => .error (.logicError "Cannot convert non hexadecimal character")

def ignoredCharacters : Text :=
  ['-', '_', ':', ',', ' ', '\t', '\x27', '\r', '\n', '\x00']

/-- The character that `CleanSvfString` keeps for one it reads. -/
def cleanCharacter (nextChar : Char) : Except Fault (Option Char) :=
  if nextChar ∈ hexNibbles then .ok (some nextChar)
  else if nextChar ∈ ['a', 'b', 'c', 'd', 'e', 'f'] then .ok (some nextChar.toUpper)
  else if nextChar ∈ ignoredCharacters then .ok none
  else .error (.invalidArgument "SVFVector only support characters in \x2701,\x27:_-\\x20\\t\x27")

/-- The loop of `CleanSvfString`. -/
def cleanCharacters : Text → Except Fault Text
  | [] => .ok []
  | nextChar :: rest => do
    let kept ← cleanCharacter nextChar
    let data ← cleanCharacters rest
    .ok (kept.toList ++ data)

def cleanSvfString (svfString : Text) (bitsCount : Nat) : Except Fault Text := do
  if bitsCount > svfString.length * 4 then
    throw (.invalidArgument "bitsCount is too large relative to svfString")
  let expectedCharCount := bytesCountFromBitsCount bitsCount * 2
  let data ← cleanCharacters svfString
  if data.length = (expectedCharCount + uint32Size - 1) % uint32Size then
    let bitsOnLastBytes := bitsCount % 8
    if bitsOnLastBytes ≠ 0 ∧ bitsOnLastBytes ≤ 4 then .ok ('0' :: data)
    else
      throw (.invalidArgument "There is not enough hexadecimal character for specified bits count")
  else if data.length > expectedCharCount then .ok (data.drop (data.length - expectedCharCount))
  else if data.length < expectedCharCount then
    throw (.invalidArgument "There is not enough hexadecimal character for specified bits count")
  else .ok data

/-- `SVFVector(string_view, uint32_t)`. -/
def ofText (svfString : Text) (bitsCount : Nat) : Except Fault SvfVector :=
  (cleanSvfString svfString bitsCount).map fun data => ⟨data, bitsCount⟩

/-- The loop of `ToBinaryVector` over pairs of digits. -/
def appendPairs : Text → Nat → Mutation Unit
  | msbChar :: lsbChar :: rest, usedBitsOnLastByte => do
    let msb ← orThrow (charToNibble msbChar)
    let lsb ← orThrow (charToNibble lsbChar)
    append8 ((msb <<< 4) + lsb) usedBitsOnLastByte .right
    appendPairs rest 8
  | [_], _ => throw .undefinedBehaviour
  | [], _ => pure ()

def toBinaryVector (svf : SvfVector) : Except Fault BinaryVector :=
  if svf.data.length % 2 ≠ 0 then
    .error (.logicError "Expected SVFVector to end with a 2 digits")
  else
    build empty (appendPairs svf.data (if svf.usedBits % 8 = 0 then 8 else svf.usedBits % 8))

/-! ### Digits -/

theorem charToNibble_high (byte : Byte) :
    charToNibble (hexNibble (byte >>> 4)) = .ok (byte >>> 4) := by
  revert byte
  decide

theorem charToNibble_low (byte : Byte) :
    charToNibble (hexNibble (byte &&& 0x0F)) = .ok (byte &&& 0x0F) := by
  revert byte
  decide

theorem nibbles_add (byte : Byte) : ((byte >>> 4) <<< 4) + (byte &&& 0x0F) = byte := by
  revert byte
  decide

theorem mem_byteDigits {byte : Byte} {c : Char} (hc : c ∈ byteDigits byte) : c ∈ hexNibbles := by
  have hall : ∀ byte : Byte, (byteDigits byte).all (· ∈ hexNibbles) := by decide
  exact of_decide_eq_true (List.all_eq_true.mp (hall byte) c hc)

@[simp] theorem byteDigits_length (byte : Byte) : (byteDigits byte).length = 2 := rfl

theorem flatMap_byteDigits_length (bytes : List Byte) :
    (bytes.flatMap byteDigits).length = 2 * bytes.length := by
  induction bytes with
  | nil => rfl
  | cons byte rest ih =>
    rw [List.flatMap_cons, List.length_append, byteDigits_length, ih, List.length_cons]
    omega

/-! ### Reading digits back -/

theorem appendPairs_cons {byte : Byte} {bytes : List Byte} {count : Nat} (hpos : 0 < count)
    (hle : count ≤ 8) {l : List Bool} (hbound : l.length + count < uint32Size) :
    (appendPairs ((byte :: bytes).flatMap byteDigits) count).run (ofBits l .notFixed) =
      (appendPairs (bytes.flatMap byteDigits) 8).run
        (ofBits (l ++ (byteBits byte).drop (8 - count)) .notFixed) := by
  have hrun := append8_ofBits (p := .notFixed) hpos hle (by decide) hbound
    (((byte >>> 4) <<< 4) + (byte &&& 0x0F)) .right
  have hbits : alignedBits (((byte >>> 4) <<< 4) + (byte &&& 0x0F)) count .right =
      (byteBits byte).drop (8 - count) := by
    rw [nibbles_add]
    rfl
  rw [hbits] at hrun
  rw [List.flatMap_cons, byteDigits, List.cons_append, List.cons_append, List.nil_append, appendPairs]
  simp only [EStateM.run_bind, charToNibble_high, charToNibble_low, orThrow_ok, hrun]

theorem appendPairs_eq (bytes : List Byte) {l : List Bool}
    (hbound : l.length + 8 * bytes.length < uint32Size) :
    (appendPairs (bytes.flatMap byteDigits) 8).run (ofBits l .notFixed) =
      .ok () (ofBits (l ++ unpack bytes) .notFixed) := by
  induction bytes generalizing l with
  | nil =>
    rw [unpack_nil, List.append_nil]
    rfl
  | cons byte bytes ih =>
    rw [List.length_cons] at hbound
    rw [appendPairs_cons (by decide) (Nat.le_refl _) (by omega), Nat.sub_self, List.drop_zero,
      ih (by rw [List.length_append, byteBits_length]; omega), unpack_cons, List.append_assoc]

/-- The digits of a right aligned buffer are read back to the bits behind its padding. -/
theorem toBinaryVector_eq {bytes : List Byte} {count : Nat} {l : List Bool} (hpos : 0 < count)
    (hcount : count < uint32Size) (hl : l.length = count)
    (hunpack : unpack bytes = List.replicate (8 * bytesFor count - count) false ++ l) :
    toBinaryVector ⟨bytes.flatMap byteDigits, count⟩ = .ok (ofBits l .notFixed) := by
  have hlength := rightAligned_length hl hunpack
  have hle := le_bytesFor count
  have hlt := bytesFor_lt count
  have hsize : uint32Size = 4294967296 := rfl
  obtain ⟨byte, rest, rfl⟩ : ∃ byte rest, bytes = byte :: rest := by
    apply List.exists_cons_of_ne_nil
    apply List.ne_nil_of_length_pos
    omega
  rw [List.length_cons] at hlength
  obtain ⟨r, hr⟩ : ∃ r, (if count % 8 = 0 then 8 else count % 8) = r := ⟨_, rfl⟩
  have hfirst : 0 < r ∧ r ≤ 8 ∧ 8 - r = 8 * bytesFor count - count := by
    split at hr <;> omega
  obtain ⟨hrpos, hrle, hpadding⟩ := hfirst
  have heven : ¬((byte :: rest).flatMap byteDigits).length % 2 ≠ 0 := by
    rw [flatMap_byteDigits_length]
    omega
  have hbits : (byteBits byte).drop (8 - r) ++ unpack rest = l := by
    have hdrop := congrArg (List.drop (8 - r)) hunpack
    rw [unpack_cons, List.drop_append_of_le_length (by rw [byteBits_length]; omega), ← hpadding,
      List.drop_left' List.length_replicate] at hdrop
    exact hdrop
  rw [toBinaryVector, if_neg heven, build]
  simp only [hr]
  rw [empty_eq_ofBits, appendPairs_cons hrpos hrle (by rw [List.length_nil]; omega),
    List.nil_append, appendPairs_eq]
  · rw [hbits]
  · rw [List.length_drop, byteBits_length]
    omega

theorem ofBinaryVector_eq {v : BinaryVector} (hexact : v.ExactBytes) (hpos : 0 < v.usedBits) :
    ∃ bytes, v.dataRightAligned = .ok bytes ∧
      ofBinaryVector v = .ok ⟨bytes.flatMap byteDigits, v.usedBits⟩ := by
  obtain ⟨bytes, hbytes, hunpack⟩ := dataRightAligned_eq hexact
  obtain ⟨byte, rest, hdata, hused, hlsb, hle⟩ := hexact.split hpos
  have hlength : v.data.length = bytesFor v.usedBits := hexact
  refine ⟨bytes, hbytes, ?_⟩
  rw [ofBinaryVector, if_neg (Nat.ne_of_gt hpos)]
  by_cases haligned : v.usedBits % 8 = 0
  · have hfull : 8 * bytesFor v.usedBits = v.usedBits := by
      unfold bytesFor
      omega
    have hsame : v.data = bytes := by
      apply unpack_injective
      rw [hunpack, hfull, Nat.sub_self, List.replicate_zero, List.nil_append, bits,
        List.take_of_length_le (by rw [unpack_length]; omega)]
    have hne : bytes ≠ [] := by
      rw [← hsame, hdata]
      exact List.cons_ne_nil _ _
    simp only [if_pos haligned, hsame, if_neg hne]
    rfl
  · have hlast : lastByteBitsCount v.usedBits = v.usedBits % 8 := by
      rw [lastByteBitsCount, if_neg (Nat.ne_of_gt hpos), if_neg haligned]
    rw [dataRightAligned, if_neg (Nat.ne_of_gt hlsb), hlast] at hbytes
    simp only [if_neg haligned, hbytes]
    rfl

/-! ### Cleaning texts -/

theorem cleanCharacters_eq {digits text : Text}
    (h : Interleaved (· ∈ ignoredCharacters) digits text) (hdigits : ∀ c ∈ digits, c ∈ hexNibbles) :
    cleanCharacters text = .ok digits := by
  induction h with
  | nil => rfl
  | item c h ih =>
    have hc := hdigits c List.mem_cons_self
    have hrest := ih fun other hother => hdigits other (List.mem_cons_of_mem _ hother)
    rw [cleanCharacters, cleanCharacter, if_pos hc, hrest]
    rfl
  | @filler _ _ c hc h ih =>
    have hall : ignoredCharacters.all
        (fun c => c ∉ hexNibbles && c ∉ ['a', 'b', 'c', 'd', 'e', 'f']) = true := by decide
    have hnone := List.all_eq_true.mp hall c hc
    rw [Bool.and_eq_true, decide_eq_true_eq, decide_eq_true_eq] at hnone
    rw [cleanCharacters, cleanCharacter, if_neg hnone.1, if_neg hnone.2, if_pos hc, ih hdigits]
    rfl

/-- The digits of a vector without the zero that completes their number to an even one. -/
def significantDigits (digits : Text) (bitsCount : Nat) : Text :=
  digits.drop (2 * bytesFor bitsCount - (bitsCount + 3) / 4)

theorem first_digit {byte : Byte} {rest : List Bool} {bits : List Bool} {padding : Nat}
    (hpadding : 4 ≤ padding) (hbits : byteBits byte ++ bits = List.replicate padding false ++ rest) :
    hexNibble (byte >>> 4) = '0' := by
  have hzero : byte >>> 4 = 0 := by
    apply byteBits_injective
    have hfront : (byteBits byte).take 4 = List.replicate 4 false := by
      have htake := congrArg (List.take 4) hbits
      rw [List.take_append_of_le_length (by rw [byteBits_length]; decide),
        List.take_append_of_le_length (by rw [List.length_replicate]; exact hpadding),
        List.take_replicate, Nat.min_eq_left hpadding] at htake
      exact htake
    rw [byteBits_shiftRight _ (by decide), hfront]
    rfl
  rw [hzero]
  rfl

section Cleaning

variable {bytes : List Byte} {count : Nat} {l : List Bool} (hpos : 0 < count)
  (hbound : count + 7 < uint32Size) (hl : l.length = count)
  (hunpack : unpack bytes = List.replicate (8 * bytesFor count - count) false ++ l)
include hpos hl hunpack

/-- The digit that is left out, if there is one, is a zero. -/
theorem take_byteDigits :
    (bytes.flatMap byteDigits).take (2 * bytesFor count - (count + 3) / 4) =
      List.replicate (2 * bytesFor count - (count + 3) / 4) '0' := by
  have hlength := rightAligned_length hl hunpack
  have hle := le_bytesFor count
  obtain ⟨byte, rest, rfl⟩ : ∃ byte rest, bytes = byte :: rest := by
    apply List.exists_cons_of_ne_nil
    apply List.ne_nil_of_length_pos
    omega
  by_cases hnone : 2 * bytesFor count - (count + 3) / 4 = 0
  · rw [hnone]
    rfl
  · have hone : 2 * bytesFor count - (count + 3) / 4 = 1 ∧ 4 ≤ 8 * bytesFor count - count := by
      unfold bytesFor at *
      omega
    rw [hone.1, List.flatMap_cons, byteDigits, List.cons_append]
    exact congrArg (fun c => [c]) (first_digit hone.2 hunpack)

include hbound

theorem cleanSvfString_eq {zeros : Nat} {text : Text}
    (htext : Interleaved (· ∈ ignoredCharacters)
      (List.replicate zeros '0' ++ significantDigits (bytes.flatMap byteDigits) count) text) :
    cleanSvfString text count = .ok (bytes.flatMap byteDigits) := by
  have hsize : uint32Size = 4294967296 := rfl
  have hlength := rightAligned_length hl hunpack
  have hdigits := flatMap_byteDigits_length bytes
  have htake := take_byteDigits hpos hl hunpack
  have hbytes : count ≤ 8 * bytesFor count ∧ 8 * bytesFor count < count + 8 :=
    ⟨le_bytesFor count, bytesFor_lt count⟩
  obtain ⟨padding, hpadding⟩ : ∃ padding, 2 * bytesFor count - (count + 3) / 4 = padding := ⟨_, rfl⟩
  rw [significantDigits, hpadding] at htext
  rw [hpadding] at htake
  have hkept : (List.replicate zeros '0' ++ (bytes.flatMap byteDigits).drop padding).length =
      zeros + (count + 3) / 4 := by
    rw [List.length_append, List.length_replicate, List.length_drop]
    omega
  have hclean := cleanCharacters_eq htext (by
    intro c hc
    rcases List.mem_append.mp hc with hzero | hdigit
    · rw [List.eq_of_mem_replicate hzero]
      decide
    · obtain ⟨byte, -, hbyte⟩ := List.mem_flatMap.mp (List.mem_of_mem_drop hdigit)
      exact mem_byteDigits hbyte)
  have hlong : ¬count > text.length * 4 := by
    have hle := htext.length_le
    omega
  have hlast : (bytesFor count * 2 + uint32Size - 1) % uint32Size = 2 * bytesFor count - 1 := by
    rw [hsize]
    omega
  rw [cleanSvfString, if_neg hlong, bytesCountFromBitsCount_eq hbound, hclean]
  change (if (List.replicate zeros '0' ++ (bytes.flatMap byteDigits).drop padding).length =
    (bytesFor count * 2 + uint32Size - 1) % uint32Size then _ else _) = _
  rw [hlast, hkept]
  by_cases hodd : zeros + (count + 3) / 4 = 2 * bytesFor count - 1
  · have hnone : zeros = 0 ∧ padding = 1 := by omega
    have hbits : count % 8 ≠ 0 ∧ count % 8 ≤ 4 := by omega
    rw [if_pos hodd, if_pos hbits, hnone.1, hnone.2, List.replicate_zero, List.nil_append]
    rw [hnone.2] at htake
    have hsplit := List.take_append_drop 1 (bytes.flatMap byteDigits)
    rw [htake] at hsplit
    exact congrArg Except.ok hsplit
  · have hmore : padding ≤ zeros := by omega
    have hdrop : (List.replicate zeros '0' ++ (bytes.flatMap byteDigits).drop padding).drop
        (zeros - padding) = bytes.flatMap byteDigits := by
      have hrest : zeros - (zeros - padding) = padding := by omega
      rw [List.drop_append_of_le_length (by rw [List.length_replicate]; omega), List.drop_replicate,
        hrest, ← htake, List.take_append_drop]
    rw [if_neg hodd]
    by_cases hextra : zeros + (count + 3) / 4 > bytesFor count * 2
    · have hskip : zeros + (count + 3) / 4 - bytesFor count * 2 = zeros - padding := by omega
      rw [if_pos hextra, hskip, hdrop]
    · have hexact : zeros - padding = 0 := by omega
      rw [hexact, List.drop_zero] at hdrop
      rw [if_neg hextra, if_neg (by omega), hdrop]

end Cleaning

end SvfVector

namespace BinaryVector

open SvfVector

/-! ### Lossless exports -/

/-- What the right aligned buffer and the text of a vector should do, where `front` is what a buffer holds before the bytes that are needed: the vector is created again by both overloads, and it is read back from its text, also after separators and leading zeros. -/
structure ExportLaws (v : BinaryVector) (front : List Byte) : Prop where
  bytes : ∃ bytes, v.dataRightAligned = .ok bytes ∧ bytes.length = bytesFor v.usedBits ∧
    unpack bytes = List.replicate (8 * bytesFor v.usedBits - v.usedBits) false ++ v.bits
  roundTrip (p : SizeProperty) : ∃ bytes w, v.dataRightAligned = .ok bytes ∧
    createFromRightAlignedBuffer (front ++ bytes) v.usedBits p = .ok w ∧
    createFromMovedRightAlignedBuffer (front ++ bytes) v.usedBits p = .ok w ∧
    w.compareEqualTo v = true
  longer (last : List Byte) (p : SizeProperty) : last.length = bytesFor v.usedBits →
    ∃ w, createFromRightAlignedBuffer last v.usedBits p = .ok w ∧
      createFromRightAlignedBuffer (front ++ last) v.usedBits p = .ok w ∧
      createFromMovedRightAlignedBuffer (front ++ last) v.usedBits p = .ok w
  text : 0 < v.usedBits → ∃ svf w, ofBinaryVector v = .ok svf ∧ svf.usedBits = v.usedBits ∧
    svf.toBinaryVector = .ok w ∧ w.compareEqualTo v = true
  cleaned (svf : SvfVector) (zeros : Nat) (svfString : Text) : 0 < v.usedBits →
    ofBinaryVector v = .ok svf →
    Interleaved (· ∈ ignoredCharacters)
      (List.replicate zeros '0' ++ significantDigits svf.data v.usedBits) svfString →
    ∃ cleaned w, ofText svfString v.usedBits = .ok cleaned ∧ cleaned.toBinaryVector = .ok w ∧
      w.compareEqualTo v = true

theorem createFromRightAlignedBuffer_longer (front : List Byte) {last : List Byte} {bitsCount : Nat}
    (hbound : bitsCount + 7 < uint32Size) (hlast : last.length = bytesFor bitsCount)
    (p : SizeProperty) :
    createFromRightAlignedBuffer (front ++ last) bitsCount p =
      .ok (ofBits ((unpack last).drop (8 * bytesFor bitsCount - bitsCount)) p) := by
  have hle := le_bytesFor bitsCount
  have hskip : 8 * (front ++ last).length - bitsCount =
      8 * front.length + (8 * bytesFor bitsCount - bitsCount) := by
    rw [List.length_append]
    omega
  rw [createFromRightAlignedBuffer_eq hbound (by rw [List.length_append]; omega), hskip,
    unpack_append, ← unpack_length front, List.drop_length_add_append]

namespace ExportLaws

variable {v : BinaryVector} (hv : v.Stored) {front : List Byte} (hlaws : ExportLaws v front)
include hv hlaws

theorem usedBits_bound : v.usedBits + 7 < uint32Size := by
  obtain ⟨bytes, hbytes, hlength, -⟩ := hlaws.bytes
  obtain ⟨bytes', w, hbytes', hcopied, -, -⟩ := hlaws.roundTrip .notFixed
  have hsame : bytes' = bytes := Except.ok.inj (hbytes'.symm.trans hbytes)
  have hsize : uint32Size = 4294967296 := rfl
  by_contra hwraps
  have hne : front ++ bytes' ≠ [] := by
    apply List.ne_nil_of_length_pos
    rw [List.length_append, hsame, hlength, bytesFor]
    omega
  rw [createFromRightAlignedBuffer_wraps hne hv.usedBits_lt (by omega)] at hcopied
  cases hcopied

/-- Whole bytes are copied in place only if there is room for them behind where they go. -/
theorem front_length (haligned : v.usedBits % 8 = 0) : v.usedBits / 8 ≤ front.length := by
  obtain ⟨bytes, hbytes, hlength, -⟩ := hlaws.bytes
  obtain ⟨bytes', w, hbytes', -, hmoved, -⟩ := hlaws.roundTrip .notFixed
  have hsame : bytes' = bytes := Except.ok.inj (hbytes'.symm.trans hbytes)
  have hbound := usedBits_bound hv hlaws
  by_contra hshort
  have hwhole : bytesFor v.usedBits = v.usedBits / 8 := by
    unfold bytesFor
    omega
  rw [createFromMovedRightAlignedBuffer_overlaps (by omega) hbound
    (by rw [List.length_append, hsame, hlength]; omega) haligned
    (by rw [List.length_append, hsame, hlength]; omega)] at hmoved
  cases hmoved

end ExportLaws

/-- The export is lossless unless the number of bytes wraps, or whole bytes are shifted by nothing to where they overlap with themselves. -/
theorem exportLaws_iff {v : BinaryVector} (hv : v.Stored) (front : List Byte) :
    ExportLaws v front ↔
      v.usedBits + 7 < uint32Size ∧ (v.usedBits % 8 = 0 → v.usedBits / 8 ≤ front.length) := by
  constructor
  · intro hlaws
    exact ⟨hlaws.usedBits_bound hv, hlaws.front_length hv⟩
  · rintro ⟨hbound, hroom⟩
    have hexact := hv.exactBytes
    have hbits := hexact.bits_length
    obtain ⟨bytes, hbytes, hunpack⟩ := dataRightAligned_eq hexact
    have hlength := rightAligned_length hbits hunpack
    have hmoved (last : List Byte) (hlast : last.length = bytesFor v.usedBits) (p : SizeProperty) :
        createFromMovedRightAlignedBuffer (front ++ last) v.usedBits p =
          createFromRightAlignedBuffer (front ++ last) v.usedBits p := by
      refine createFromMovedRightAlignedBuffer_eq hbound
        (by rw [List.length_append]; omega) (fun haligned => ?_) p
      have hfar := hroom haligned
      rw [List.length_append, hlast]
      unfold bytesFor
      omega
    have hread : (unpack bytes).drop (8 * bytesFor v.usedBits - v.usedBits) = v.bits := by
      rw [hunpack]
      exact List.drop_left' List.length_replicate
    have hsame (p : SizeProperty) : (ofBits v.bits p).compareEqualTo v = true :=
      (compareEqualTo_iff (ofBits_wellFormed _ _).exactBytes hexact).mpr (bits_ofBits _ _)
    constructor
    · exact ⟨bytes, hbytes, hlength, hunpack⟩
    · intro p
      have hcopied := createFromRightAlignedBuffer_longer front hbound hlength p
      rw [hread] at hcopied
      exact ⟨bytes, _, hbytes, hcopied, (hmoved bytes hlength p).trans hcopied, hsame p⟩
    · intro last p hlast
      have hcopied := createFromRightAlignedBuffer_longer front hbound hlast p
      exact ⟨_, createFromRightAlignedBuffer_longer [] hbound hlast p, hcopied,
        (hmoved last hlast p).trans hcopied⟩
    · intro hpos
      obtain ⟨bytes', hbytes', hsvf⟩ := ofBinaryVector_eq hexact hpos
      obtain rfl : bytes' = bytes := Except.ok.inj (hbytes'.symm.trans hbytes)
      exact ⟨_, _, hsvf, rfl, toBinaryVector_eq hpos hv.usedBits_lt hbits hunpack, hsame .notFixed⟩
    · intro svf zeros svfString hpos hsvf htext
      obtain ⟨bytes', hbytes', hsvf'⟩ := ofBinaryVector_eq hexact hpos
      obtain rfl : bytes' = bytes := Except.ok.inj (hbytes'.symm.trans hbytes)
      obtain rfl := Except.ok.inj (hsvf'.symm.trans hsvf)
      refine ⟨⟨bytes'.flatMap byteDigits, v.usedBits⟩, _, ?_,
        toBinaryVector_eq hpos hv.usedBits_lt hbits hunpack, hsame .notFixed⟩
      rw [ofText, cleanSvfString_eq hpos hbound hbits hunpack htext]
      rfl

theorem exportLaws_eleven_bits :
    ExportLaws (ofBits [true, false, true, true, false, false, true, false, true, true, true]
      .notFixed) [0x5A] :=
  (exportLaws_iff ⟨(ofBits_wellFormed _ _).exactBytes, by decide⟩ _).mpr
    ⟨by decide, fun haligned => absurd haligned (by decide)⟩

/-- The bytes of a vector of 2^32 - 1 bits are counted as none. -/
theorem not_exportLaws : ¬∀ v : BinaryVector, v.Stored → ExportLaws v [] := by
  intro hall
  have hsize : uint32Size = 4294967296 := rfl
  have hlength : (List.replicate (uint32Size - 1) false).length = uint32Size - 1 :=
    List.length_replicate
  have hv : (ofBits (List.replicate (uint32Size - 1) false) .notFixed).Stored :=
    ⟨(ofBits_wellFormed _ _).exactBytes, by rw [ofBits_usedBits, hlength]; omega⟩
  have hbound := (hall _ hv).usedBits_bound hv
  rw [ofBits_usedBits, hlength] at hbound
  omega

end BinaryVector

end Mast
