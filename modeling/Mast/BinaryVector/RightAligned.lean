import Mast.BinaryVector.Compare
import Mast.BinaryVector.Slice

/-!
# Right aligned buffers

`dataRightAligned` shifts the bits of a vector to the end of a new buffer, and `createFromRightAlignedBuffer` shifts them back. The overload for a moved buffer shifts in place: its loop writes behind what it has still to read, but the copy it makes when there is nothing to shift may not read from where it writes.
-/

namespace Mast

open BitPacking

namespace BinaryVector

/-- Merges the last bits of a byte with the first `lsbBits` bits of the next one. -/
def mergeNeighbours (lsbBits : Nat) (msb lsb : Byte) : Byte :=
  (msb <<< lsbBits &&& leftBitsMask8 (8 - lsbBits)) |||
    (lsb >>> (8 - lsbBits) &&& rightBitsMask8 lsbBits)

/-- The loop of `DataRightAligned` over the bytes after the first one; `SVFVector` has a copy of it. -/
def mergedBytes (lsbBits : Nat) : List Byte → Nat → Except Fault (List Byte)
  | [], _ => .ok []
  | msb :: rest, remainingBitsCount =>
    if remainingBitsCount = 0 then .ok []
    else
      match rest.head? with
      | none => .error .undefinedBehaviour
      | some lsb =>
        (mergedBytes lsbBits rest (remainingBitsCount - 8)).map (mergeNeighbours lsbBits msb lsb :: ·)

/-- The bytes of a right aligned buffer whose first byte has `lsbBits` bits. -/
def strandedBytes (v : BinaryVector) (lsbBits : Nat) : Except Fault (List Byte) :=
  match v.data.head? with
  | none => .error .undefinedBehaviour
  | some byte =>
    (mergedBytes lsbBits v.data (v.usedBits - lsbBits)).map
      ((byte >>> (8 - lsbBits) &&& rightBitsMask8 lsbBits) :: ·)

def dataRightAligned (v : BinaryVector) : Except Fault (List Byte) :=
  let binVectorLsbBits := lastByteBitsCount v.usedBits
  if binVectorLsbBits = 0 then .ok v.data else v.strandedBytes binVectorLsbBits

/-- `std::memcpy` inside of one buffer, whose behaviour is undefined for regions that overlap. -/
def memcpyWithin (buffer : List Byte) (dest source bytesCount : Nat) : Except Fault (List Byte) :=
  if source < dest + bytesCount ∧ dest < source + bytesCount then .error .undefinedBehaviour
  else .ok (splice buffer dest ((buffer.drop source).take bytesCount))

/-- The loop of `ShiftBufferLeft` in a buffer that is both source and destination. -/
def shiftBytesWithin (leftShiftCount : Nat) (buffer : List Byte) (source dest bitsCount : Nat) :
    Except Fault (List Byte) :=
  if bitsCount = 0 then .ok buffer
  else
    match buffer[source]? with
    | none => .error .undefinedBehaviour
    | some byte =>
      if bitsCount ≤ 8 - leftShiftCount then .ok (buffer.set dest (byte <<< leftShiftCount))
      else
        match buffer[source + 1]? with
        | none => .error .undefinedBehaviour
        | some next =>
          shiftBytesWithin leftShiftCount
            (buffer.set dest (byte <<< leftShiftCount ||| next >>> (8 - leftShiftCount)))
            (source + 1) (dest + 1) (bitsCount - 8)
termination_by bitsCount

/-- `ShiftBufferLeft` from a right aligned buffer to itself. -/
def shiftBufferLeftWithin (buffer : List Byte) (bitsCount : Nat) : Except Fault (List Byte) :=
  if bitsCount = 0 then .ok buffer
  else
    let bytesCount := bytesCountFromBitsCount bitsCount
    if ¬buffer.length ≥ bytesCount then
      .error (.invalidArgument ("Source buffer must be large enough to hold " ++
        toString bitsCount ++ " bit(s)"))
    else if buffer = [] then .error (.invalidArgument "Invalid source buffer")
    else
      let firstByteOffset := buffer.length - bytesCount
      let leftShiftCount := 8 - lastByteBitsCount bitsCount
      let shifted :=
        if bytesCount = 0 then .ok buffer
        else if leftShiftCount = 0 then memcpyWithin buffer 0 firstByteOffset bytesCount
        else shiftBytesWithin leftShiftCount buffer firstByteOffset 0 (bytesCount * 8 - leftShiftCount)
      shifted.map (List.take bytesCount)

/-- `CreateFromRightAlignedBuffer` for a buffer that is moved. -/
def createFromMovedRightAlignedBuffer (buffer : List Byte) (bitsCount : Nat)
    (sizeProperty : SizeProperty) : Except Fault BinaryVector := do
  let newBuffer ← shiftBufferLeftWithin buffer bitsCount
  ofData newBuffer bitsCount sizeProperty

/-! ### Exporting -/

theorem byteBits_mergeNeighbours {lsbBits : Nat} (hle : lsbBits ≤ 8) (msb lsb : Byte) :
    byteBits (mergeNeighbours lsbBits msb lsb) =
      (byteBits msb).drop lsbBits ++ (byteBits lsb).take lsbBits := by
  apply List.ext_getElem
  · simp
    omega
  · intro i hleft hright
    have hi : i < 8 := by simpa using hleft
    have hmasks : (leftBitsMask8 (8 - lsbBits)).getMsbD i = decide (i < 8 - lsbBits) ∧
        (rightBitsMask8 lsbBits).getMsbD i = decide (8 - lsbBits ≤ i) := by
      interval_cases lsbBits <;> interval_cases i <;> decide
    rw [byteBits_getElem, mergeNeighbours, BitVec.getMsbD_or, BitVec.getMsbD_and, BitVec.getMsbD_and,
      hmasks.1, hmasks.2, BitVec.getMsbD_shiftLeft, BitVec.getMsbD_ushiftRight, List.getElem_append]
    by_cases hfirst : i < 8 - lsbBits
    · simp [hfirst, hi, Nat.add_comm]
    · have hsecond : 8 - lsbBits ≤ i := by omega
      simp [hfirst, hsecond, hi]

theorem mergedBytes_eq {lsbBits : Nat} (hle : lsbBits ≤ 8) (byte : Byte) (rest : List Byte) :
    ∃ merged, mergedBytes lsbBits (byte :: rest) (8 * rest.length) = .ok merged ∧
      unpack merged = ((unpack (byte :: rest)).drop lsbBits).take (8 * rest.length) := by
  induction rest generalizing byte with
  | nil => exact ⟨[], rfl, by simp⟩
  | cons next rest ih =>
    obtain ⟨merged, hmerged, hunpack⟩ := ih next
    have hcount : 8 * (next :: rest).length - 8 = 8 * rest.length := by
      rw [List.length_cons]
      omega
    refine ⟨mergeNeighbours lsbBits byte next :: merged, ?_, ?_⟩
    · rw [mergedBytes, if_neg (by simp), hcount, List.head?_cons]
      simp only [hmerged]
      rfl
    · have hfront : ((byteBits byte).drop lsbBits ++ (byteBits next).take lsbBits).length = 8 := by
        simp
        omega
      have hbits : (unpack (byte :: next :: rest)).drop lsbBits =
          ((byteBits byte).drop lsbBits ++ (byteBits next).take lsbBits) ++
            (unpack (next :: rest)).drop lsbBits := by
        rw [unpack_cons, unpack_cons,
          List.drop_append_of_le_length (by rw [byteBits_length]; omega),
          List.drop_append_of_le_length (by rw [byteBits_length]; omega), List.append_assoc]
        congr 1
        rw [← List.append_assoc, List.take_append_drop]
      have hsum : 8 * (next :: rest).length = 8 + 8 * rest.length := by
        rw [List.length_cons]
        omega
      rw [unpack_cons, byteBits_mergeNeighbours hle, hunpack, hbits, hsum, ← hfront,
        List.take_length_add_append]

theorem byteBits_firstByte {lsbBits : Nat} (hle : lsbBits ≤ 8) (byte : Byte) :
    byteBits (byte >>> (8 - lsbBits) &&& rightBitsMask8 lsbBits) =
      List.replicate (8 - lsbBits) false ++ (byteBits byte).take lsbBits := by
  have hmerge := byteBits_mergeNeighbours hle 0 byte
  have hzero : mergeNeighbours lsbBits 0 byte = byte >>> (8 - lsbBits) &&& rightBitsMask8 lsbBits := by
    simp [mergeNeighbours]
  have hnone : (byteBits 0).drop lsbBits = List.replicate (8 - lsbBits) false := by
    interval_cases lsbBits <;> rfl
  rw [← hzero, hmerge, hnone]

theorem ExactBytes.split {v : BinaryVector} (hexact : v.ExactBytes) (hpos : 0 < v.usedBits) :
    ∃ byte rest, v.data = byte :: rest ∧
      v.usedBits = 8 * rest.length + lastByteBitsCount v.usedBits ∧
      0 < lastByteBitsCount v.usedBits ∧ lastByteBitsCount v.usedBits ≤ 8 := by
  have hlength : v.data.length = bytesFor v.usedBits := hexact
  cases hdata : v.data with
  | nil =>
    rw [hdata, List.length_nil, bytesFor] at hlength
    omega
  | cons byte rest =>
    rw [hdata, List.length_cons, bytesFor] at hlength
    refine ⟨byte, rest, rfl, ?_⟩
    unfold lastByteBitsCount
    split
    · omega
    · split <;> omega

theorem strandedBytes_eq {v : BinaryVector} (hexact : v.ExactBytes) (hpos : 0 < v.usedBits) :
    ∃ bytes, v.strandedBytes (lastByteBitsCount v.usedBits) = .ok bytes ∧
      unpack bytes = List.replicate (8 * bytesFor v.usedBits - v.usedBits) false ++ v.bits := by
  obtain ⟨byte, rest, hdata, hused, hlsb, hle⟩ := hexact.split hpos
  obtain ⟨r, hr⟩ : ∃ r, lastByteBitsCount v.usedBits = r := ⟨_, rfl⟩
  rw [hr] at hused hlsb hle ⊢
  have hcount : v.usedBits - r = 8 * rest.length := by omega
  have hpadding : 8 * bytesFor v.usedBits - v.usedBits = 8 - r := by
    unfold bytesFor
    omega
  obtain ⟨merged, hmerged, hunpack⟩ := mergedBytes_eq hle byte rest
  refine ⟨(byte >>> (8 - r) &&& rightBitsMask8 r) :: merged, ?_, ?_⟩
  · rw [strandedBytes, hdata, List.head?_cons, hcount]
    simp only [hmerged]
    rfl
  · have hsum : v.usedBits = r + 8 * rest.length := by omega
    have hfirst : (unpack (byte :: rest)).take r = (byteBits byte).take r := by
      rw [unpack_cons, List.take_append_of_le_length (by rw [byteBits_length]; omega)]
    rw [unpack_cons, byteBits_firstByte hle, hunpack, hpadding, List.append_assoc, ← hfirst,
      ← List.take_add, bits, hdata, ← hsum]

/-- The right aligned bytes are those of the vector behind as many zeros as complete the first one. -/
theorem dataRightAligned_eq {v : BinaryVector} (hexact : v.ExactBytes) :
    ∃ bytes, v.dataRightAligned = .ok bytes ∧
      unpack bytes = List.replicate (8 * bytesFor v.usedBits - v.usedBits) false ++ v.bits := by
  by_cases hnone : v.usedBits = 0
  · have hempty : v.data = [] := by
      rw [← List.length_eq_zero_iff, hexact, hnone]
      rfl
    refine ⟨[], ?_, ?_⟩
    · rw [dataRightAligned, hnone, hempty]
      rfl
    · rw [bits, hempty, hnone]
      rfl
  · obtain ⟨byte, rest, -, -, hlsb, -⟩ := hexact.split (Nat.pos_of_ne_zero hnone)
    rw [dataRightAligned, if_neg (Nat.ne_of_gt hlsb)]
    exact strandedBytes_eq hexact (Nat.pos_of_ne_zero hnone)

theorem rightAligned_length {bytes : List Byte} {count : Nat} {l : List Bool}
    (hl : l.length = count)
    (hunpack : unpack bytes = List.replicate (8 * bytesFor count - count) false ++ l) :
    bytes.length = bytesFor count := by
  have hlength := congrArg List.length hunpack
  have hle := le_bytesFor count
  rw [unpack_length, List.length_append, List.length_replicate, hl] at hlength
  omega

/-! ### Shifting in place -/

/-- The loop writes what the loop between two buffers does, since it never writes in front of what it reads. -/
theorem shiftBytesWithin_eq {leftShiftCount : Nat} (hpos : 0 < leftShiftCount)
    (hlt : leftShiftCount < 8) (count : Nat) (buffer : List Byte) {source dest : Nat}
    (hdest : dest ≤ source) (hlength : buffer.length = source + (count + 1)) :
    ∃ shifted, shiftBytesWithin leftShiftCount buffer source dest ((count + 1) * 8 - leftShiftCount) =
        .ok shifted ∧
      shifted.take (dest + (count + 1)) = buffer.take dest ++
        shiftBytes leftShiftCount (buffer.drop source) ((count + 1) * 8 - leftShiftCount) := by
  induction count generalizing buffer source dest with
  | zero =>
    have hsource : source < buffer.length := by omega
    have hin : dest < buffer.length := by omega
    have hlast : buffer.drop source = [buffer[source]] := by
      rw [List.drop_eq_getElem_cons hsource, List.drop_of_length_le (by omega)]
    refine ⟨buffer.set dest (buffer[source] <<< leftShiftCount), ?_, ?_⟩
    · rw [shiftBytesWithin, if_neg (by omega), List.getElem?_eq_getElem hsource]
      exact if_pos (by omega)
    · rw [hlast, shiftBytes, if_neg (by omega), if_pos (by omega), Nat.zero_add,
        List.take_add_one, List.take_set_of_le (Nat.le_refl _), List.getElem?_set_self hin]
      rfl
  | succ count ih =>
    have hsource : source < buffer.length := by omega
    have hnext : source + 1 < buffer.length := by omega
    have hin : dest < buffer.length := by omega
    obtain ⟨byte, hbyte⟩ : ∃ byte, byte =
        buffer[source] <<< leftShiftCount ||| buffer[source + 1] >>> (8 - leftShiftCount) := ⟨_, rfl⟩
    have hcount : (count + 1 + 1) * 8 - leftShiftCount - 8 = (count + 1) * 8 - leftShiftCount := by
      omega
    obtain ⟨shifted, hshifted, htake⟩ := ih (buffer.set dest byte)
      (Nat.succ_le_succ hdest) (by rw [List.length_set]; omega)
    have hunread : (buffer.set dest byte).drop (source + 1) = buffer.drop (source + 1) :=
      List.drop_set_of_lt (by omega)
    have hwritten : (buffer.set dest byte).take (dest + 1) = buffer.take dest ++ [byte] := by
      rw [List.take_add_one, List.take_set_of_le (Nat.le_refl _), List.getElem?_set_self hin]
      rfl
    refine ⟨shifted, ?_, ?_⟩
    · rw [shiftBytesWithin, if_neg (by omega), List.getElem?_eq_getElem hsource]
      simp only [if_neg (show ¬(count + 1 + 1) * 8 - leftShiftCount ≤ 8 - leftShiftCount by omega),
        List.getElem?_eq_getElem hnext]
      rw [hcount, ← hbyte]
      exact hshifted
    · have hsum : dest + (count + 1 + 1) = dest + 1 + (count + 1) := by omega
      rw [hsum, htake, hunread, hwritten, List.append_assoc, List.drop_eq_getElem_cons hsource,
        shiftBytes, if_neg (by omega), if_neg (by omega), hcount,
        List.drop_eq_getElem_cons hnext, List.headD_cons, ← hbyte]
      rfl

section Within

variable {buffer : List Byte} {bitsCount : Nat} (hpos : 0 < bitsCount)
  (hbound : bitsCount + 7 < uint32Size) (hbuffer : bytesFor bitsCount ≤ buffer.length)
include hpos hbound hbuffer

/-- Shifting in place gives the shifted buffer, unless whole bytes are copied to where they overlap. -/
theorem shiftBufferLeftWithin_eq
    (hapart : bitsCount % 8 = 0 → 2 * bytesFor bitsCount ≤ buffer.length) :
    shiftBufferLeftWithin buffer bitsCount = shiftBufferLeft buffer bitsCount := by
  have hle := le_bytesFor bitsCount
  have hlt := bytesFor_lt bitsCount
  have hne : buffer ≠ [] := List.ne_nil_of_length_pos (by omega)
  obtain ⟨count, hcount⟩ : ∃ count, bytesFor bitsCount = count + 1 :=
    ⟨bytesFor bitsCount - 1, by omega⟩
  rw [shiftBufferLeftWithin, shiftBufferLeft, if_neg (Nat.ne_of_gt hpos),
    if_neg (Nat.ne_of_gt hpos), bytesCountFromBitsCount_eq hbound]
  simp only [if_neg (not_not.mpr hbuffer), if_neg hne, lastByteBitsCount_eq hpos,
    if_neg (show ¬bytesFor bitsCount = 0 by omega)]
  by_cases hnone : 8 * bytesFor bitsCount - bitsCount = 0
  · have hfar := hapart (by omega)
    have hlength : ((buffer.drop (buffer.length - bytesFor bitsCount)).take
        (bytesFor bitsCount)).length = bytesFor bitsCount := by
      rw [List.length_take, List.length_drop]
      omega
    have hall : (buffer.drop (buffer.length - bytesFor bitsCount)).take (bytesFor bitsCount) =
        buffer.drop (buffer.length - bytesFor bitsCount) :=
      List.take_of_length_le (by rw [List.length_drop]; omega)
    rw [if_pos hnone, if_pos hnone, memcpyWithin, if_neg (by omega), splice, List.take_zero,
      List.nil_append]
    simp only [Except.map]
    rw [List.take_left' hlength, hall]
  · rw [if_neg hnone, if_neg hnone]
    obtain ⟨shifted, hshifted, htake⟩ := shiftBytesWithin_eq (by omega)
      (show 8 * bytesFor bitsCount - bitsCount < 8 by omega) count buffer
      (Nat.zero_le (buffer.length - bytesFor bitsCount)) (by omega)
    rw [← hcount] at hshifted htake
    rw [Nat.zero_add, List.take_zero, List.nil_append] at htake
    rw [hshifted, ← htake]
    rfl

theorem shiftBufferLeftWithin_overlaps (haligned : bitsCount % 8 = 0)
    (hnear : buffer.length < 2 * bytesFor bitsCount) :
    shiftBufferLeftWithin buffer bitsCount = .error .undefinedBehaviour := by
  have hle := le_bytesFor bitsCount
  have hlt := bytesFor_lt bitsCount
  have hne : buffer ≠ [] := List.ne_nil_of_length_pos (by omega)
  rw [shiftBufferLeftWithin, if_neg (Nat.ne_of_gt hpos), bytesCountFromBitsCount_eq hbound]
  simp only [if_neg (not_not.mpr hbuffer), if_neg hne, lastByteBitsCount_eq hpos,
    if_neg (show ¬bytesFor bitsCount = 0 by omega),
    if_pos (show 8 * bytesFor bitsCount - bitsCount = 0 by omega)]
  rw [memcpyWithin, if_pos (by omega)]
  rfl

end Within

/-- The overload for a moved buffer creates the same vector. -/
theorem createFromMovedRightAlignedBuffer_eq {buffer : List Byte} {bitsCount : Nat}
    (hbound : bitsCount + 7 < uint32Size) (hbuffer : bytesFor bitsCount ≤ buffer.length)
    (hapart : bitsCount % 8 = 0 → 2 * bytesFor bitsCount ≤ buffer.length) (p : SizeProperty) :
    createFromMovedRightAlignedBuffer buffer bitsCount p =
      createFromRightAlignedBuffer buffer bitsCount p := by
  by_cases hnone : bitsCount = 0
  · subst hnone
    rfl
  · rw [createFromMovedRightAlignedBuffer, createFromRightAlignedBuffer,
      shiftBufferLeftWithin_eq (Nat.pos_of_ne_zero hnone) hbound hbuffer hapart]

theorem createFromMovedRightAlignedBuffer_overlaps {buffer : List Byte} {bitsCount : Nat}
    (hpos : 0 < bitsCount) (hbound : bitsCount + 7 < uint32Size)
    (hbuffer : bytesFor bitsCount ≤ buffer.length) (haligned : bitsCount % 8 = 0)
    (hnear : buffer.length < 2 * bytesFor bitsCount) (p : SizeProperty) :
    createFromMovedRightAlignedBuffer buffer bitsCount p = .error .undefinedBehaviour := by
  rw [createFromMovedRightAlignedBuffer,
    shiftBufferLeftWithin_overlaps hpos hbound hbuffer haligned hnear]
  rfl

/-- A whole byte is copied onto itself. -/
example : createFromMovedRightAlignedBuffer [0xAB] 8 .notFixed = .error .undefinedBehaviour := rfl

end BinaryVector

end Mast
