import Mast.BinaryVector.Append

/-!
# Slices and right aligned buffers

`slice` and `reverseSlice` copy a range of bits to a new vector; `createFromRightAlignedBuffer` reads a buffer whose last byte, not its first, is complete. Each is proved equal to the list operation it stands for.
-/

namespace Mast

open BitPacking

namespace BinaryVector

/-- `Slice(firstBitOffset, bitsCount)`. After its first byte it appends the next ones as `Append` does. -/
def slice (v : BinaryVector) (firstBitOffset bitsCount : Nat) : Except Fault BinaryVector :=
  if bitsCount = 0 then
    .ok empty
  else if ¬firstBitOffset < v.usedBits then
    .error (.invalidArgument "Slice first bit must be within bits range")
  else if ¬(firstBitOffset + bitsCount) % uint32Size ≤ v.usedBits then
    .error (.invalidArgument "Bits count must be such that slice is within bits range")
  else
    let byteOffset := firstBitOffset / 8
    let bitOffsetInFirstByte := firstBitOffset % 8
    let bitsInFirstByte := min bitsCount (8 - bitOffsetInFirstByte)
    build empty do
      match v.data[byteOffset]? with
      | none => throw .undefinedBehaviour
      | some byte => append8 (byte <<< bitOffsetInFirstByte) bitsInFirstByte .left
      appendBytes (v.data.drop (byteOffset + 1)) (bitsCount - bitsInFirstByte)

def lastByteBitsCount (usedBits : Nat) : Nat :=
  if usedBits = 0 then 0 else if usedBits % 8 = 0 then 8 else usedBits % 8

/-- The loop of `ShiftBufferLeft`; the bits still to shift tell when the last byte is reached. -/
def shiftBytes (leftShiftCount : Nat) : List Byte → Nat → List Byte
  | [], _ => []
  | byte :: rest, bitsCount =>
    if bitsCount = 0 then []
    else if bitsCount ≤ 8 - leftShiftCount then [byte <<< leftShiftCount]
    else (byte <<< leftShiftCount ||| rest.headD 0 >>> (8 - leftShiftCount)) ::
      shiftBytes leftShiftCount rest (bitsCount - 8)

/-- `ShiftBufferLeft` from a right aligned buffer to a new left aligned one. -/
def shiftBufferLeft (sourceBuffer : List Byte) (bitsCount : Nat) : Except Fault (List Byte) :=
  if bitsCount = 0 then
    .ok sourceBuffer
  else
    let bytesCount := bytesCountFromBitsCount bitsCount
    if ¬sourceBuffer.length ≥ bytesCount then
      .error (.invalidArgument ("Source buffer must be large enough to hold " ++
        toString bitsCount ++ " bit(s)"))
    else if sourceBuffer = [] then
      .error (.invalidArgument "Invalid source buffer")
    else
      let source := sourceBuffer.drop (sourceBuffer.length - bytesCount)
      let leftShiftCount := 8 - lastByteBitsCount bitsCount
      if leftShiftCount = 0 then .ok source
      else .ok (shiftBytes leftShiftCount source (bytesCount * 8 - leftShiftCount))

def createFromRightAlignedBuffer (buffer : List Byte) (bitsCount : Nat)
    (sizeProperty : SizeProperty) : Except Fault BinaryVector := do
  let newBuffer ← shiftBufferLeft buffer bitsCount
  ofData newBuffer bitsCount sizeProperty

/-- The lookup table and the swap of nibbles of `ReverseSlice`. -/
def reverseByte (byte : Byte) : Byte :=
  let lookup (nibble : Byte) : Byte :=
    [0x0, 0x8, 0x4, 0xc, 0x2, 0xa, 0x6, 0xe, 0x1, 0x9, 0x5, 0xd, 0x3, 0xb, 0x7, 0xf].getD
      nibble.toNat 0
  lookup (byte &&& 0b1111) <<< 4 ||| lookup (byte >>> 4)

def reverseSlice (v : BinaryVector) (firstBitOffset bitsCount : Nat) :
    Except Fault BinaryVector := do
  if bitsCount = 0 then
    return empty
  let originalSlice ← v.slice firstBitOffset bitsCount
  createFromRightAlignedBuffer (originalSlice.data.reverse.map reverseByte) originalSlice.usedBits
    .notFixed

/-! ### Slices -/

theorem empty_eq_ofBits : empty = ofBits [] .notFixed := rfl

theorem bits_drop_take {v : BinaryVector} {first count : Nat}
    (hrange : first + count ≤ v.usedBits) :
    (v.bits.drop first).take count = ((unpack v.data).drop first).take count := by
  rw [bits, List.drop_take, List.take_take, Nat.min_eq_left (by omega)]

theorem drop_unpack {data : List Byte} {first : Nat} (hfirst : first / 8 < data.length) :
    (unpack data).drop first =
      (byteBits data[first / 8]).drop (first % 8) ++ unpack (data.drop (first / 8 + 1)) := by
  have hsplit : first = 8 * (first / 8) + first % 8 := (Nat.div_add_mod first 8).symm
  conv_lhs => rw [hsplit, ← List.drop_drop, ← unpack_drop, List.drop_eq_getElem_cons hfirst,
    unpack_cons]
  exact List.drop_append_of_le_length (by rw [byteBits_length]; omega)

/-- A slice that passes both checks holds the bits of its range of the buffer. -/
theorem slice_buffer {v : BinaryVector} {firstBitOffset bitsCount : Nat}
    (hcount : bitsCount < uint32Size) (hfirst : firstBitOffset < v.usedBits)
    (hlast : (firstBitOffset + bitsCount) % uint32Size ≤ v.usedBits)
    (hbuffer : firstBitOffset + bitsCount ≤ 8 * v.data.length) :
    v.slice firstBitOffset bitsCount =
      .ok (ofBits (((unpack v.data).drop firstBitOffset).take bitsCount) .notFixed) := by
  by_cases hnone : bitsCount = 0
  · subst hnone
    rw [slice, if_pos rfl, List.take_zero, empty_eq_ofBits]
  · have hbyte : firstBitOffset / 8 < v.data.length := by omega
    generalize hmin : min bitsCount (8 - firstBitOffset % 8) = bitsInFirstByte
    have hfirstByte : alignedBits (v.data[firstBitOffset / 8] <<< (firstBitOffset % 8))
        bitsInFirstByte .left =
          ((byteBits v.data[firstBitOffset / 8]).drop (firstBitOffset % 8)).take bitsCount := by
      rw [alignedBits, byteBits_shiftLeft _ (by omega),
        List.take_append_of_le_length (by rw [List.length_drop, byteBits_length]; omega), ← hmin,
        List.take_eq_take_min, List.take_eq_take_min (i := bitsCount), List.length_drop,
        byteBits_length]
      congr 1
      omega
    have hrest : bitsCount - (8 - firstBitOffset % 8) = bitsCount - bitsInFirstByte := by omega
    have hbytes : bitsCount - bitsInFirstByte ≤
        8 * (v.data.drop (firstBitOffset / 8 + 1)).length := by
      rw [List.length_drop]
      omega
    rw [drop_unpack hbyte, List.take_append, List.length_drop, byteBits_length, ← hfirstByte, hrest,
      slice, if_neg hnone, if_neg (not_not.mpr hfirst), if_neg (not_not.mpr hlast)]
    have hrun₁ := append8_ofBits (l := []) (p := .notFixed)
      (show 0 < bitsInFirstByte by omega) (by omega) (by decide) (by rw [List.length_nil]; omega)
      (v.data[firstBitOffset / 8] <<< (firstBitOffset % 8)) .left
    have hlength := alignedBits_length (show bitsInFirstByte ≤ 8 by omega)
      (v.data[firstBitOffset / 8] <<< (firstBitOffset % 8)) .left
    have hrun₂ := appendBytes_ofBits hbytes
      (l := alignedBits (v.data[firstBitOffset / 8] <<< (firstBitOffset % 8)) bitsInFirstByte .left)
      (p := .notFixed) (by decide) (by omega)
    simp only [build, List.getElem?_eq_getElem hbyte, EStateM.run_bind, hmin, empty_eq_ofBits,
      hrun₁, List.nil_append, hrun₂]

theorem slice_eq {v : BinaryVector} (hexact : v.ExactBytes) (hused : v.usedBits < uint32Size)
    {firstBitOffset bitsCount : Nat} (hrange : firstBitOffset + bitsCount ≤ v.usedBits) :
    v.slice firstBitOffset bitsCount =
      .ok (ofBits ((v.bits.drop firstBitOffset).take bitsCount) .notFixed) := by
  by_cases hnone : bitsCount = 0
  · subst hnone
    rw [slice, if_pos rfl, List.take_zero, empty_eq_ofBits]
  · have hlast : (firstBitOffset + bitsCount) % uint32Size ≤ v.usedBits := by
      rw [Nat.mod_eq_of_lt (by omega)]
      exact hrange
    have hbytes := le_bytesFor v.usedBits
    rw [← hexact] at hbytes
    rw [bits_drop_take hrange]
    exact slice_buffer (by omega) (by omega) hlast (by omega)

/-- A slice that passes both checks but ends behind the buffer reads bytes that are not there. -/
theorem slice_undefined {v : BinaryVector} {firstBitOffset bitsCount : Nat}
    (hcount : bitsCount < uint32Size) (hfirst : firstBitOffset < v.usedBits)
    (hlast : (firstBitOffset + bitsCount) % uint32Size ≤ v.usedBits)
    (hbuffer : 8 * v.data.length < firstBitOffset + bitsCount) (hsome : bitsCount ≠ 0) :
    v.slice firstBitOffset bitsCount = .error .undefinedBehaviour := by
  rw [slice, if_neg hsome, if_neg (not_not.mpr hfirst), if_neg (not_not.mpr hlast)]
  cases hbyte : v.data[firstBitOffset / 8]? with
  | none =>
    simp only [build, hbyte]
    rfl
  | some byte =>
    have hin := (List.getElem?_eq_some_iff.mp hbyte).1
    generalize hmin : min bitsCount (8 - firstBitOffset % 8) = bitsInFirstByte
    have hrun₁ := append8_ofBits (l := []) (p := .notFixed)
      (show 0 < bitsInFirstByte by omega) (by omega) (by decide) (by rw [List.length_nil]; omega)
      (byte <<< (firstBitOffset % 8)) .left
    have hlength := alignedBits_length (show bitsInFirstByte ≤ 8 by omega)
      (byte <<< (firstBitOffset % 8)) .left
    have hbytes : 8 * (v.data.drop (firstBitOffset / 8 + 1)).length <
        bitsCount - bitsInFirstByte := by
      rw [List.length_drop]
      omega
    obtain ⟨v', hrun₂⟩ := appendBytes_undefined hbytes
      (l := alignedBits (byte <<< (firstBitOffset % 8)) bitsInFirstByte .left)
      (p := .notFixed) (by decide) (by omega)
    simp only [build, hbyte, EStateM.run_bind, hmin, empty_eq_ofBits, hrun₁, List.nil_append, hrun₂]

theorem slice_rejects {v : BinaryVector} {firstBitOffset bitsCount : Nat} (hsome : bitsCount ≠ 0)
    (hout : v.usedBits ≤ firstBitOffset ∨
      v.usedBits < (firstBitOffset + bitsCount) % uint32Size) :
    ∃ fault, fault ≠ .undefinedBehaviour ∧ v.slice firstBitOffset bitsCount = .error fault := by
  rw [slice, if_neg hsome]
  by_cases hfirst : firstBitOffset < v.usedBits
  · rw [if_neg (not_not.mpr hfirst), if_pos (by omega)]
    exact ⟨_, by simp, rfl⟩
  · rw [if_pos hfirst]
    exact ⟨_, by simp, rfl⟩

/-- A slice that is returned starts inside of the vector, ends inside of its buffer and where the range check in 32 bits lets it. -/
theorem slice_within {v result : BinaryVector} {firstBitOffset bitsCount : Nat}
    (hsome : bitsCount ≠ 0) (hslice : v.slice firstBitOffset bitsCount = .ok result) :
    firstBitOffset < v.usedBits ∧ firstBitOffset + bitsCount ≤ 8 * v.data.length ∧
      (firstBitOffset + bitsCount) % uint32Size ≤ v.usedBits := by
  by_cases hfirst : firstBitOffset < v.usedBits
  · by_cases hlast : (firstBitOffset + bitsCount) % uint32Size ≤ v.usedBits
    · refine ⟨hfirst, ?_, hlast⟩
      rw [slice, if_neg hsome, if_neg (not_not.mpr hfirst), if_neg (not_not.mpr hlast)] at hslice
      cases hbyte : v.data[firstBitOffset / 8]? with
      | none =>
        simp only [build, hbyte] at hslice
        cases hslice
      | some byte =>
        have hin := (List.getElem?_eq_some_iff.mp hbyte).1
        simp only [build, hbyte, EStateM.run_bind] at hslice
        split at hslice
        · rename_i hrun
          split at hrun
          · have hrest := appendBytes_within hrun
            rw [List.length_drop] at hrest
            omega
          · cases hrun
        · cases hslice
    · rw [slice, if_neg hsome, if_neg (not_not.mpr hfirst), if_pos hlast] at hslice
      cases hslice
  · rw [slice, if_neg hsome, if_pos hfirst] at hslice
    cases hslice

/-! ### Right aligned buffers -/

theorem unpack_shiftBytes {leftShiftCount : Nat} (hpos : 0 < leftShiftCount)
    (hlt : leftShiftCount < 8) (source : List Byte) (hsource : source ≠ []) :
    unpack (shiftBytes leftShiftCount source (source.length * 8 - leftShiftCount)) =
      (unpack source).drop leftShiftCount ++ List.replicate leftShiftCount false := by
  induction source with
  | nil => exact absurd rfl hsource
  | cons byte rest ih =>
    cases rest with
    | nil =>
      have hsome : ¬[byte].length * 8 - leftShiftCount = 0 := by
        simp only [List.length_singleton]
        omega
      have hend : [byte].length * 8 - leftShiftCount ≤ 8 - leftShiftCount := by
        simp
      rw [shiftBytes, if_neg hsome, if_pos hend, unpack_cons, byteBits_shiftLeft _ (by omega)]
      simp
    | cons next rest =>
      have hsome : ¬(byte :: next :: rest).length * 8 - leftShiftCount = 0 := by
        simp only [List.length_cons]
        omega
      have hmore : ¬(byte :: next :: rest).length * 8 - leftShiftCount ≤ 8 - leftShiftCount := by
        simp only [List.length_cons]
        omega
      have hrest : (byte :: next :: rest).length * 8 - leftShiftCount - 8 =
          (next :: rest).length * 8 - leftShiftCount := by
        simp only [List.length_cons]
        omega
      have hbyte := byteBits_shiftLeft byte (show leftShiftCount ≤ 8 by omega)
      have hmerge := byteBits_or_shiftRight hbyte next
      have hlength : ((byteBits byte).drop leftShiftCount).length = 8 - leftShiftCount := by
        simp
      rw [hlength] at hmerge
      rw [shiftBytes, if_neg hsome, if_neg hmore, hrest, unpack_cons, List.headD_cons, hmerge,
        ih (by simp), unpack_cons, unpack_cons, List.append_assoc, ← List.append_assoc,
        List.drop_append_of_le_length (by rw [byteBits_length]; omega),
        List.drop_append_of_le_length (by rw [byteBits_length]; omega)]
      conv_rhs => rw [unpack_cons, ← List.take_append_drop leftShiftCount (byteBits next)]
      simp only [List.append_assoc]

/-- The shift that makes a right aligned buffer left aligned. -/
theorem lastByteBitsCount_eq {bitsCount : Nat} (hpos : 0 < bitsCount) :
    8 - lastByteBitsCount bitsCount = 8 * bytesFor bitsCount - bitsCount := by
  unfold lastByteBitsCount bytesFor
  split
  · omega
  · split <;> omega

theorem shiftBufferLeft_eq {buffer : List Byte} {bitsCount : Nat} (hpos : 0 < bitsCount)
    (hbound : bitsCount + 7 < uint32Size) (hbuffer : bytesFor bitsCount ≤ buffer.length) :
    ∃ shifted, shiftBufferLeft buffer bitsCount = .ok shifted ∧
      unpack shifted = (unpack buffer).drop (8 * buffer.length - bitsCount) ++
        List.replicate (8 * bytesFor bitsCount - bitsCount) false := by
  have hle := le_bytesFor bitsCount
  have hlt := bytesFor_lt bitsCount
  have hlength : (buffer.drop (buffer.length - bytesFor bitsCount)).length =
      bytesFor bitsCount := by
    rw [List.length_drop]
    omega
  have hne : buffer ≠ [] := by
    rintro rfl
    simp only [List.length_nil] at hbuffer
    omega
  have hunpack : ((unpack (buffer.drop (buffer.length - bytesFor bitsCount))).drop
      (8 * bytesFor bitsCount - bitsCount)) =
        (unpack buffer).drop (8 * buffer.length - bitsCount) := by
    rw [unpack_drop, List.drop_drop]
    congr 1
    omega
  rw [shiftBufferLeft, if_neg (by omega), bytesCountFromBitsCount_eq hbound,
    if_neg (not_not.mpr hbuffer), if_neg hne, lastByteBitsCount_eq hpos]
  by_cases hnone : 8 * bytesFor bitsCount - bitsCount = 0
  · refine ⟨_, if_pos hnone, ?_⟩
    rw [← hunpack, hnone, List.drop_zero, List.replicate_zero, List.append_nil]
  · refine ⟨_, if_neg hnone, ?_⟩
    rw [← hunpack, ← unpack_shiftBytes (by omega) (by omega) _
      (List.ne_nil_of_length_pos (by omega)), hlength]

theorem createFromRightAlignedBuffer_eq {buffer : List Byte} {bitsCount : Nat}
    (hbound : bitsCount + 7 < uint32Size) (hbuffer : bytesFor bitsCount ≤ buffer.length)
    (p : SizeProperty) :
    createFromRightAlignedBuffer buffer bitsCount p =
      .ok (ofBits ((unpack buffer).drop (8 * buffer.length - bitsCount)) p) := by
  by_cases hnone : bitsCount = 0
  · subst hnone
    have hdrop : (unpack buffer).drop (8 * buffer.length) = [] :=
      List.drop_of_length_le (by simp)
    rw [Nat.sub_zero, hdrop]
    exact ofData_eq hbound p
  · obtain ⟨shifted, hshift, hunpack⟩ := shiftBufferLeft_eq (by omega) hbound hbuffer
    have hbytes := le_bytesFor bitsCount
    have hlength : shifted.length = bytesFor bitsCount := by
      have := congrArg List.length hunpack
      simp only [unpack_length, List.length_append, List.length_drop, List.length_replicate] at this
      omega
    have htake : (unpack (shifted.takeD (bytesFor bitsCount) 0)).take bitsCount =
        (unpack buffer).drop (8 * buffer.length - bitsCount) := by
      rw [List.takeD_eq_take _ (by omega), List.take_of_length_le (l := shifted) (by omega), hunpack,
        List.take_left' (by rw [List.length_drop, unpack_length]; omega)]
    rw [createFromRightAlignedBuffer, hshift, ← htake]
    exact ofData_eq hbound p

/-- Of nearly 2^32 bits the number of bytes wraps to zero: no byte is kept, and the last one cannot be masked. -/
theorem createFromRightAlignedBuffer_wraps {buffer : List Byte} (hbuffer : buffer ≠ [])
    {bitsCount : Nat} (hcount : bitsCount < uint32Size) (hwraps : uint32Size ≤ bitsCount + 7)
    (p : SizeProperty) :
    createFromRightAlignedBuffer buffer bitsCount p = .error .undefinedBehaviour := by
  have hsize : uint32Size = 4294967296 := rfl
  have hnone : bytesCountFromBitsCount bitsCount = 0 := by
    rw [bytesCountFromBitsCount, hsize]
    omega
  have hunaligned : bitsCount % 8 ≠ 0 := by omega
  have hshift : shiftBufferLeft buffer bitsCount = .ok [] := by
    have hdrop : buffer.drop (buffer.length - 0) = [] := List.drop_of_length_le (by omega)
    rw [shiftBufferLeft, if_neg (by omega), hnone]
    simp only [if_neg (not_not.mpr (Nat.zero_le _)), if_neg hbuffer, hdrop]
    split
    · rfl
    · rfl
  have hdata : ofData [] bitsCount p = .error .undefinedBehaviour := by
    rw [ofData, hnone, List.takeD_zero, build, maskLastByte, EStateM.run_bind, EStateM.run_get]
    simp only [if_pos hunaligned]
    rfl
  rw [createFromRightAlignedBuffer, hshift]
  exact hdata

/-! ### Reversed slices -/

theorem byteBits_reverseByte (byte : Byte) :
    byteBits (reverseByte byte) = (byteBits byte).reverse := by
  revert byte
  decide

theorem unpack_reverse (data : List Byte) :
    unpack (data.reverse.map reverseByte) = (unpack data).reverse := by
  induction data with
  | nil => rfl
  | cons byte rest ih =>
    rw [List.reverse_cons, List.map_append, unpack_append, ih, unpack_cons, List.reverse_append,
      List.map_singleton, unpack_cons, unpack_nil, List.append_nil, byteBits_reverseByte]

theorem reverseSlice_eq {v : BinaryVector} (hexact : v.ExactBytes)
    (hused : v.usedBits < uint32Size) {firstBitOffset bitsCount : Nat}
    (hrange : firstBitOffset + bitsCount ≤ v.usedBits) (hbound : bitsCount + 7 < uint32Size) :
    v.reverseSlice firstBitOffset bitsCount =
      .ok (ofBits ((v.bits.drop firstBitOffset).take bitsCount).reverse .notFixed) := by
  by_cases hnone : bitsCount = 0
  · subst hnone
    rw [List.take_zero]
    rfl
  · generalize hl : (v.bits.drop firstBitOffset).take bitsCount = l
    have hlength : l.length = bitsCount := by
      rw [← hl, List.length_take, List.length_drop, hexact.bits_length]
      omega
    have hslice := slice_eq hexact hused hrange
    have hbytes : ((pack l).reverse.map reverseByte).length = bytesFor l.length := by simp
    have hbuffer := createFromRightAlignedBuffer_eq (show l.length + 7 < uint32Size by omega)
      hbytes.ge .notFixed
    have hskip : ((List.replicate (8 * bytesFor l.length - l.length) false).reverse ++
        l.reverse).drop (8 * bytesFor l.length - l.length) = l.reverse :=
      List.drop_left' (by simp)
    rw [unpack_reverse, hbytes, unpack_pack, List.reverse_append, hskip] at hbuffer
    rw [reverseSlice, if_neg hnone, hslice, hl]
    exact hbuffer

end BinaryVector

end Mast
