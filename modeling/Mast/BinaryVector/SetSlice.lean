import Mast.BinaryVector.Slice

/-!
# Assigning a range of bits

`setSliceImpl` copies bits from a left aligned buffer to any offset of a vector, byte by byte with masks and shifts. It follows two pointers, and every access is checked: reading or writing behind a buffer is undefined. The loop may read one byte after the source, whose value it then masks out; a source pointer is therefore the list of the bytes that can be read from it, and `behind` says what can be read after a vector.
-/

namespace Mast

open BitPacking

namespace BinaryVector

/-! ### Pointers -/

/-- The byte behind a source pointer. -/
def readByte (source : List Byte) (offset : Nat) : Except Fault Byte :=
  match source[offset]? with
  | none => .error .undefinedBehaviour
  | some byte => .ok byte

/-- The byte behind the destination pointer is changed. -/
def writeByte (data : List Byte) (dest : Nat) (f : Byte → Byte) : Except Fault (List Byte) :=
  if dest < data.length then .ok (data.modify dest f) else .error .undefinedBehaviour

def copyBytes (source : List Byte) : Nat → Nat → Nat → List Byte → Except Fault (List Byte)
  | 0, _, _, data => .ok data
  | count + 1, dest, srce, data => do
    let byte ← readByte source srce
    let data ← writeByte data dest fun _ => byte
    copyBytes source count (dest + 1) (srce + 1) data

/-- The end of one source byte and the start of the next. -/
def mergedByte (msb lsb : Byte) (boundaryOffset : Nat) : Byte :=
  (msb &&& rightBitsMask8 boundaryOffset) <<< (8 - boundaryOffset) |||
    (lsb &&& leftBitsMask8 (8 - boundaryOffset)) >>> boundaryOffset

/-- Both source bytes are read, also when all of the second one is then masked out. -/
def mergeSource (source : List Byte) (boundaryOffset srce : Nat) : Except Fault Byte := do
  let msb ← readByte source srce
  let lsb ← readByte source (srce + 1)
  return mergedByte msb lsb boundaryOffset

/-- The loop over the destination bytes after the first one: whole bytes, then the remaining bits. -/
def copySplitBytes (source : List Byte) (boundaryOffset lastBits : Nat) :
    Nat → Nat → Nat → List Byte → Except Fault (List Byte)
  | 0, dest, srce, data =>
    if lastBits = 0 then .ok data
    else do
      let merged ← mergeSource source boundaryOffset srce
      writeByte data dest fun dst =>
        merged &&& ~~~leftBitsClearMask8 lastBits ||| dst &&& leftBitsClearMask8 lastBits
  | count + 1, dest, srce, data => do
    let merged ← mergeSource source boundaryOffset srce
    let data ← writeByte data dest fun _ => merged
    copySplitBytes source boundaryOffset lastBits count (dest + 1) (srce + 1) data

/-- The reads and writes of `SetSlice_Impl`. -/
def writeSlice (data : List Byte) (startOffset bitsCount : Nat) (source : List Byte) :
    Except Fault (List Byte) := do
  let dstByteOffset := startOffset / 8
  let boundaryOffset := startOffset % 8
  if boundaryOffset = 0 then
    let fullBytesCount := bitsCount / 8
    let copied ← copyBytes source fullBytesCount dstByteOffset 0 data
    if bitsCount % 8 = 0 then return copied
    else
      let byte ← readByte source fullBytesCount
      writeByte copied (dstByteOffset + fullBytesCount) fun dst =>
        dst &&& leftBitsClearMask8 (bitsCount % 8) ||| byte &&& leftBitsMask8 (bitsCount % 8)
  else if (boundaryOffset + bitsCount) % uint32Size < 8 then
    -- the sum may have wrapped: the table of masks has nine entries
    if 8 < bitsCount then throw .undefinedBehaviour
    let byte ← readByte source 0
    writeByte data dstByteOffset fun dst =>
      dst &&& (leftBitsMask8 boundaryOffset ||| leftBitsClearMask8 (boundaryOffset + bitsCount)) |||
        (byte &&& leftBitsMask8 bitsCount) >>> boundaryOffset
  else
    let srcMsbBitsCount := 8 - boundaryOffset
    let remainingBits := bitsCount - srcMsbBitsCount
    let byte ← readByte source 0
    let data ← writeByte data dstByteOffset fun dst =>
      dst &&& leftBitsMask8 boundaryOffset |||
        (byte &&& leftBitsMask8 srcMsbBitsCount) >>> boundaryOffset
    copySplitBytes source boundaryOffset (remainingBits % 8) (remainingBits / 8)
      (dstByteOffset + 1) 0 data

/-- `SetSlice_Impl`. The range check adds in 32 bits. -/
def setSliceImpl (startOffset bitsCount : Nat) (source : Option (List Byte)) :
    Mutation Unit := do
  match source with
  | none => throw (.invalidArgument "Source must not be nullptr")
  | some source =>
    let v ← get
    check (v.isEmpty = false) (.runtimeError "Cannot set slice of an empty BinaryVector")
    check (startOffset ≤ (v.usedBits + (uint32Size - 1)) % uint32Size)
      (.invalidArgument ("Out of range offset: " ++ toString startOffset))
    check ((startOffset + bitsCount) % uint32Size ≤ v.usedBits)
      (.invalidArgument "Slice is partially out of range")
    let data ← orThrow (writeSlice v.data startOffset bitsCount source)
    set { v with data := data }

/-- `DataLeftAligned`: the pointer to the bytes, null for a vector without any. `behind` are the bytes that can be read after those of the vector. -/
def dataLeftAligned (behind : List Byte) (v : BinaryVector) : Option (List Byte) :=
  if v.data = [] then none else some (v.data ++ behind)

/-- `SetSlice(startOffset, value)`. -/
def setSlice (behind : List Byte) (startOffset : Nat) (value : BinaryVector) : Mutation Unit :=
  setSliceImpl startOffset value.usedBits (value.dataLeftAligned behind)

structure IndexedRange where
  left : Nat
  right : Nat
  deriving DecidableEq, Repr

namespace IndexedRange

def isSingleBit (range : IndexedRange) : Bool := range.left == range.right

def increasesTowardRight (range : IndexedRange) : Bool := range.left < range.right

/-- `Width`, computed in 32 bits. -/
def width (range : IndexedRange) : Except Fault Nat :=
  let diff :=
    if range.left > range.right then range.left - range.right else range.right - range.left
  if (1 + diff) % uint32Size = 0 then
    .error (.runtimeError ("Cannot give width for range or [" ++ toString range.left ++
      toString range.right ++ "]"))
  else
    .ok ((1 + diff) % uint32Size)

end IndexedRange

/-- The vector `SetSlice_T` makes of its integer, extended with zeros to the width of the range. -/
def integerVector (rangeBitsCount : Nat) (width : UIntWidth) (value : BitVec width.bits) :
    Except Fault BinaryVector :=
  build empty do
    if rangeBitsCount > width.bits then
      appendBits false (rangeBitsCount - width.bits)
    appendUInt width value (min rangeBitsCount width.bits) .right

/-- `SetSlice_T` once the width of its range is known; `MAX_UNSIGNED_VALUE_FOR_BITS_COUNT` holds the largest value of each width. -/
def setRange (behind : List Byte) (range : IndexedRange) (rangeBitsCount : Nat) (width : UIntWidth)
    (value : BitVec width.bits) : Mutation Unit := do
  let v ← get
  check (rangeBitsCount ≤ v.usedBits) (.invalidArgument "Range is too large")
  check (range.right < v.usedBits)
    (.invalidArgument "Range extends past destination boundary")
  check (range.isSingleBit ∨ range.increasesTowardRight)
    (.invalidArgument "Do not support reversed range yet")
  check (rangeBitsCount < width.bits → value.toNat ≤ 2 ^ rangeBitsCount - 1)
    (.invalidArgument "Value is too large for target range")
  let asBinaryVector ← orThrow (integerVector rangeBitsCount width value)
  setSliceImpl range.left rangeBitsCount (asBinaryVector.dataLeftAligned behind)

def setSliceT (behind : List Byte) (range : IndexedRange) (width : UIntWidth) (value : BitVec width.bits) :
    Mutation Unit := do
  let v ← get
  check (v.isEmpty = false) (.runtimeError "Cannot set slice of an empty BinaryVector")
  let rangeBitsCount ← orThrow range.width
  setRange behind range rangeBitsCount width value

/-! ### What is written when every access stays inside

The source is then a function from byte offsets. -/

/-- The bytes that `copyBytes` writes. -/
def copiedBytes (source : Nat → Byte) : Nat → Nat → Nat → List Byte → List Byte
  | 0, _, _, data => data
  | count + 1, dest, srce, data =>
    copiedBytes source count (dest + 1) (srce + 1) (data.modify dest fun _ => source srce)

/-- The byte of the destination that gets the end of one source byte and the start of the next. -/
def sourceByte (source : Nat → Byte) (boundaryOffset srce : Nat) : Byte :=
  mergedByte (source srce) (source (srce + 1)) boundaryOffset

/-- The bytes that `copySplitBytes` writes. -/
def splitBytes (source : Nat → Byte) (boundaryOffset lastBits : Nat) :
    Nat → Nat → Nat → List Byte → List Byte
  | 0, dest, srce, data =>
    if lastBits = 0 then data
    else
      data.modify dest fun dst =>
        sourceByte source boundaryOffset srce &&& ~~~leftBitsClearMask8 lastBits |||
          dst &&& leftBitsClearMask8 lastBits
  | count + 1, dest, srce, data =>
    splitBytes source boundaryOffset lastBits count (dest + 1) (srce + 1)
      (data.modify dest fun _ => sourceByte source boundaryOffset srce)

/-- The bytes that `writeSlice` writes. -/
def writtenSlice (data : List Byte) (startOffset bitsCount : Nat) (source : Nat → Byte) :
    List Byte :=
  let dstByteOffset := startOffset / 8
  let boundaryOffset := startOffset % 8
  if boundaryOffset = 0 then
    let fullBytesCount := bitsCount / 8
    let copied := copiedBytes source fullBytesCount dstByteOffset 0 data
    if bitsCount % 8 = 0 then copied
    else
      copied.modify (dstByteOffset + fullBytesCount) fun dst =>
        dst &&& leftBitsClearMask8 (bitsCount % 8) |||
          source fullBytesCount &&& leftBitsMask8 (bitsCount % 8)
  else if boundaryOffset + bitsCount < 8 then
    data.modify dstByteOffset fun dst =>
      dst &&& (leftBitsMask8 boundaryOffset ||| leftBitsClearMask8 (boundaryOffset + bitsCount)) |||
        (source 0 &&& leftBitsMask8 bitsCount) >>> boundaryOffset
  else
    let srcMsbBitsCount := 8 - boundaryOffset
    let remainingBits := bitsCount - srcMsbBitsCount
    splitBytes source boundaryOffset (remainingBits % 8) (remainingBits / 8)
      (dstByteOffset + 1) 0
      (data.modify dstByteOffset fun dst =>
        dst &&& leftBitsMask8 boundaryOffset |||
          (source 0 &&& leftBitsMask8 srcMsbBitsCount) >>> boundaryOffset)

/-! ### Bytes made by the masks -/

theorem getMsbD_leftBitsMask8 {count i : Nat} (hcount : count ≤ 8) :
    (leftBitsMask8 count).getMsbD i = decide (i < count) := by
  by_cases hi : i < 8
  · interval_cases count <;> interval_cases i <;> rfl
  · rw [BitVec.getMsbD_of_ge _ _ (by omega)]
    simp
    omega

theorem getMsbD_leftBitsClearMask8 {count i : Nat} (hcount : count ≤ 8) :
    (leftBitsClearMask8 count).getMsbD i = decide (count ≤ i ∧ i < 8) := by
  by_cases hi : i < 8
  · interval_cases count <;> interval_cases i <;> rfl
  · rw [BitVec.getMsbD_of_ge _ _ (by omega)]
    simp
    omega

theorem getMsbD_rightBitsMask8 {count i : Nat} (hcount : count ≤ 8) :
    (rightBitsMask8 count).getMsbD i = decide (8 ≤ i + count ∧ i < 8) := by
  by_cases hi : i < 8
  · interval_cases count <;> interval_cases i <;> rfl
  · rw [BitVec.getMsbD_of_ge _ _ (by omega)]
    simp
    omega

/-- The bits a pointer to left aligned data gives, from `offset` on. -/
def sourceBits (source : Nat → Byte) (offset count : Nat) : List Bool :=
  (List.range count).map fun i => (source ((offset + i) / 8)).getMsbD ((offset + i) % 8)

@[simp] theorem sourceBits_length (source : Nat → Byte) (offset count : Nat) :
    (sourceBits source offset count).length = count := by
  simp [sourceBits]

theorem sourceBits_append (source : Nat → Byte) (offset first second : Nat) :
    sourceBits source offset first ++ sourceBits source (offset + first) second =
      sourceBits source offset (first + second) := by
  simp only [sourceBits, List.range_add, List.map_append, List.map_map, Nat.add_assoc]
  rfl

/-! ### The bytes that are written -/

theorem byteBits_eq_splice {byte old : Byte} {offset : Nat} {values : List Bool}
    (hrange : offset + values.length ≤ 8)
    (hbits : ∀ i < 8, byte.getMsbD i = if h : offset ≤ i ∧ i < offset + values.length then
      values[i - offset] else old.getMsbD i) :
    byteBits byte = splice (byteBits old) offset values := by
  have hlength : (splice (byteBits old) offset values).length = 8 := by
    rw [splice_length (by rwa [byteBits_length]), byteBits_length]
  apply List.ext_getElem
  · rw [hlength, byteBits_length]
  · intro i hleft hright
    rw [splice_getElem (by rwa [byteBits_length]), byteBits_getElem, hbits i (by omega)]
    simp only [List.get_eq_getElem, byteBits_getElem]

/-- The last bits of an aligned copy. -/
theorem byteBits_writeLeft (old byte : Byte) {count : Nat} (hcount : count ≤ 8) :
    byteBits (old &&& leftBitsClearMask8 count ||| byte &&& leftBitsMask8 count) =
      splice (byteBits old) 0 ((byteBits byte).take count) := by
  have hlength : ((byteBits byte).take count).length = count := by
    rw [List.length_take, byteBits_length, Nat.min_eq_left hcount]
  apply byteBits_eq_splice (by omega)
  intro i hi
  rw [BitVec.getMsbD_or, BitVec.getMsbD_and, BitVec.getMsbD_and, getMsbD_leftBitsClearMask8 hcount,
    getMsbD_leftBitsMask8 hcount]
  simp only [hlength]
  by_cases hlow : i < count
  · simp [hlow]
  · simp [hlow, hi]
    omega

theorem byteBits_writeInside (old byte : Byte) {offset count : Nat} (hrange : offset + count ≤ 8) :
    byteBits (old &&& (leftBitsMask8 offset ||| leftBitsClearMask8 (offset + count)) |||
        (byte &&& leftBitsMask8 count) >>> offset) =
      splice (byteBits old) offset ((byteBits byte).take count) := by
  have hlength : ((byteBits byte).take count).length = count := by
    rw [List.length_take, byteBits_length, Nat.min_eq_left (by omega)]
  apply byteBits_eq_splice (by omega)
  intro i hi
  rw [BitVec.getMsbD_or, BitVec.getMsbD_and, BitVec.getMsbD_or, BitVec.getMsbD_ushiftRight,
    BitVec.getMsbD_and, getMsbD_leftBitsClearMask8 hrange, getMsbD_leftBitsMask8 (by omega),
    getMsbD_leftBitsMask8 (by omega)]
  simp only [hlength]
  by_cases hbefore : i < offset
  · have hout : ¬(offset ≤ i ∧ i < offset + count) := by omega
    simp [hbefore, hout]
  · by_cases hinside : i < offset + count
    · have hin : offset ≤ i ∧ i < offset + count := by omega
      have hvalue : i - offset < count := by omega
      have hnot : ¬offset + count ≤ i := by omega
      simp [hbefore, hin, hvalue, hnot, hi]
    · have hout : ¬(offset ≤ i ∧ i < offset + count) := by omega
      have hvalue : ¬i - offset < count := by omega
      have hpast : offset + count ≤ i := by omega
      simp [hout, hvalue, hpast, hi]

theorem byteBits_writeFirst (old byte : Byte) {offset : Nat} (hoffset : offset ≤ 8) :
    byteBits (old &&& leftBitsMask8 offset |||
        (byte &&& leftBitsMask8 (8 - offset)) >>> offset) =
      splice (byteBits old) offset ((byteBits byte).take (8 - offset)) := by
  have hinside := byteBits_writeInside old byte (show offset + (8 - offset) ≤ 8 by omega)
  have hclear : leftBitsMask8 offset ||| leftBitsClearMask8 (offset + (8 - offset)) =
      leftBitsMask8 offset := by
    rw [Nat.add_sub_cancel' hoffset]
    exact BitVec.or_zero
  rwa [hclear] at hinside

theorem byteBits_writeLast (old byte : Byte) {count : Nat} (hcount : count ≤ 8) :
    byteBits (byte &&& ~~~leftBitsClearMask8 count ||| old &&& leftBitsClearMask8 count) =
      splice (byteBits old) 0 ((byteBits byte).take count) := by
  have hmask : ~~~leftBitsClearMask8 count = leftBitsMask8 count := by
    interval_cases count <;> rfl
  rw [hmask, BitVec.or_comm, byteBits_writeLeft old byte hcount]

theorem byteBits_eq_sourceBits (source : Nat → Byte) (index : Nat) :
    byteBits (source index) = sourceBits source (8 * index) 8 := by
  apply List.ext_getElem
  · simp
  · intro i hleft hright
    have hi : i < 8 := by simpa using hright
    have hdiv : (8 * index + i) / 8 = index := by omega
    have hmod : (8 * index + i) % 8 = i := by omega
    simp only [byteBits_getElem, sourceBits, List.getElem_map, List.getElem_range, hdiv, hmod]

theorem sourceBits_take (source : Nat → Byte) (offset : Nat) {count total : Nat}
    (hle : count ≤ total) :
    (sourceBits source offset total).take count = sourceBits source offset count := by
  rw [sourceBits, ← List.map_take, List.take_range, Nat.min_eq_left hle, sourceBits]

/-- A merged byte holds eight consecutive bits of the source. -/
theorem byteBits_sourceByte (source : Nat → Byte) {boundaryOffset : Nat}
    (hboundary : boundaryOffset ≤ 8) (srce : Nat) :
    byteBits (sourceByte source boundaryOffset srce) =
      sourceBits source (8 * srce + (8 - boundaryOffset)) 8 := by
  apply List.ext_getElem
  · simp
  · intro i hleft hright
    have hi : i < 8 := by simpa using hright
    rw [byteBits_getElem, sourceByte, mergedByte, BitVec.getMsbD_or, BitVec.getMsbD_shiftLeft,
      BitVec.getMsbD_ushiftRight, BitVec.getMsbD_and, BitVec.getMsbD_and,
      getMsbD_rightBitsMask8 hboundary, getMsbD_leftBitsMask8 (by omega)]
    simp only [sourceBits, List.getElem_map, List.getElem_range]
    by_cases hlow : i < boundaryOffset
    · have hdiv : (8 * srce + (8 - boundaryOffset) + i) / 8 = srce := by omega
      have hmod : (8 * srce + (8 - boundaryOffset) + i) % 8 = i + (8 - boundaryOffset) := by omega
      have hin : i + (8 - boundaryOffset) < 8 := by omega
      have hright : 8 ≤ i + (8 - boundaryOffset) + boundaryOffset := by omega
      simp [hlow, hdiv, hmod, hin, hright]
    · have hdiv : (8 * srce + (8 - boundaryOffset) + i) / 8 = srce + 1 := by omega
      have hmod : (8 * srce + (8 - boundaryOffset) + i) % 8 = i - boundaryOffset := by omega
      have hout : ¬i + (8 - boundaryOffset) < 8 := by omega
      have hleft : i - boundaryOffset < 8 - boundaryOffset := by omega
      simp [hlow, hdiv, hmod, hout, hleft, hi]

/-! ### The loops -/

theorem copiedBytes_length (source : Nat → Byte) (count dest srce : Nat) (data : List Byte) :
    (copiedBytes source count dest srce data).length = data.length := by
  induction count generalizing dest srce data with
  | zero => rfl
  | succ count ih => rw [copiedBytes, ih, List.length_modify]

theorem unpack_copiedBytes (source : Nat → Byte) (srce : Nat) {count dest : Nat} {data : List Byte}
    (hrange : dest + count ≤ data.length) :
    unpack (copiedBytes source count dest srce data) =
      splice (unpack data) (8 * dest) (sourceBits source (8 * srce) (8 * count)) := by
  induction count generalizing dest srce data with
  | zero => simp [copiedBytes, sourceBits]
  | succ count ih =>
    have hbits := byteBits_eq_sourceBits source srce
    have hbyte := unpack_modify_const (show dest < data.length by omega) (source srce)
    rw [hbits] at hbyte
    have hlength : 8 * dest + (sourceBits source (8 * srce) 8).length ≤ (unpack data).length := by
      rw [sourceBits_length, unpack_length]
      omega
    have hdest : 8 * (dest + 1) = 8 * dest + (sourceBits source (8 * srce) 8).length := by
      rw [sourceBits_length]
      omega
    rw [copiedBytes, ih _ (by rw [List.length_modify]; omega), hbyte, hdest,
      splice_splice hlength, Nat.mul_succ, sourceBits_append]
    congr 2
    omega

theorem unpack_splitBytes (source : Nat → Byte) {boundaryOffset lastBits : Nat}
    (hboundary : boundaryOffset ≤ 8) (hlast : lastBits < 8) {count dest srce : Nat}
    {data : List Byte} (hrange : 8 * (dest + count) + lastBits ≤ 8 * data.length) :
    unpack (splitBytes source boundaryOffset lastBits count dest srce data) =
      splice (unpack data) (8 * dest)
        (sourceBits source (8 * srce + (8 - boundaryOffset)) (8 * count + lastBits)) := by
  induction count generalizing dest srce data with
  | zero =>
    by_cases hnone : lastBits = 0
    · simp [splitBytes, hnone, sourceBits]
    · have hvalues : (byteBits (sourceByte source boundaryOffset srce)).take lastBits =
          sourceBits source (8 * srce + (8 - boundaryOffset)) lastBits := by
        rw [byteBits_sourceByte source hboundary, sourceBits_take _ _ (by omega)]
      have hdest : dest < data.length := by omega
      have hbyte := byteBits_writeLast data[dest] (sourceByte source boundaryOffset srce)
        (show lastBits ≤ 8 by omega)
      rw [hvalues] at hbyte
      have hwrite := unpack_modify (f := fun dst =>
        sourceByte source boundaryOffset srce &&& ~~~leftBitsClearMask8 lastBits |||
          dst &&& leftBitsClearMask8 lastBits) hdest hbyte (by rw [sourceBits_length]; omega)
      rw [splitBytes, if_neg hnone, hwrite, Nat.add_zero, Nat.mul_zero, Nat.zero_add]
  | succ count ih =>
    have hbits := byteBits_sourceByte source hboundary srce
    generalize hvalues : sourceBits source (8 * srce + (8 - boundaryOffset)) 8 = values at hbits
    have hcount : values.length = 8 := by rw [← hvalues, sourceBits_length]
    have hbyte := unpack_modify_const (show dest < data.length by omega)
      (sourceByte source boundaryOffset srce)
    rw [hbits] at hbyte
    have hlength : 8 * dest + values.length ≤ (unpack data).length := by
      rw [hcount, unpack_length]
      omega
    have hdest : 8 * (dest + 1) = 8 * dest + values.length := by omega
    have hsrce : 8 * (srce + 1) + (8 - boundaryOffset) =
        8 * srce + (8 - boundaryOffset) + 8 := by omega
    rw [splitBytes, ih (by rw [List.length_modify]; omega), hbyte, hdest,
      splice_splice hlength, ← hvalues, hsrce, sourceBits_append]
    congr 2
    omega

/-- What `SetSlice_Impl` writes puts the first bits of the source over the range and change nothing else. -/
theorem unpack_writtenSlice {data : List Byte} {startOffset bitsCount : Nat}
    (hrange : startOffset + bitsCount ≤ 8 * data.length) (source : Nat → Byte) :
    unpack (writtenSlice data startOffset bitsCount source) =
      splice (unpack data) startOffset (sourceBits source 0 bitsCount) := by
  have hsplit : 8 * (startOffset / 8) + startOffset % 8 = startOffset := Nat.div_add_mod _ _
  have htake : ∀ (index : Nat) {count : Nat}, count ≤ 8 →
      (byteBits (source index)).take count = sourceBits source (8 * index) count := by
    intro index count hcount
    rw [byteBits_eq_sourceBits, sourceBits_take _ _ hcount]
  rw [writtenSlice]
  by_cases haligned : startOffset % 8 = 0
  · have hdest : 8 * (startOffset / 8) = startOffset := by omega
    have hcopied := unpack_copiedBytes source 0
      (show startOffset / 8 + bitsCount / 8 ≤ data.length by omega)
    rw [hdest, Nat.mul_zero] at hcopied
    rw [if_pos haligned]
    by_cases hwhole : bitsCount % 8 = 0
    · have hcount : 8 * (bitsCount / 8) = bitsCount := by omega
      rw [if_pos hwhole, hcopied, hcount]
    · generalize hdata : copiedBytes source (bitsCount / 8) (startOffset / 8) 0 data = copied
        at hcopied
      have hlength : copied.length = data.length := by rw [← hdata, copiedBytes_length]
      have hindex : startOffset / 8 + bitsCount / 8 < copied.length := by omega
      have hbyte := byteBits_writeLeft copied[startOffset / 8 + bitsCount / 8]
        (source (bitsCount / 8)) (show bitsCount % 8 ≤ 8 by omega)
      rw [htake _ (by omega)] at hbyte
      have hwrite := unpack_modify (f := fun dst =>
        dst &&& leftBitsClearMask8 (bitsCount % 8) |||
          source (bitsCount / 8) &&& leftBitsMask8 (bitsCount % 8)) hindex hbyte
        (by rw [sourceBits_length]; omega)
      have hoffset : 8 * (startOffset / 8 + bitsCount / 8) + 0 =
          startOffset + (sourceBits source 0 (8 * (bitsCount / 8))).length := by
        rw [sourceBits_length]
        omega
      have hcount : 8 * (bitsCount / 8) + bitsCount % 8 = bitsCount := Nat.div_add_mod _ _
      have hjoin := sourceBits_append source 0 (8 * (bitsCount / 8)) (bitsCount % 8)
      rw [Nat.zero_add, hcount] at hjoin
      rw [if_neg hwhole, hdata, hwrite, hcopied, hoffset, splice_splice
        (by rw [sourceBits_length, unpack_length]; omega), hjoin]
  · rw [if_neg haligned]
    by_cases hinside : startOffset % 8 + bitsCount < 8
    · have hindex : startOffset / 8 < data.length := by omega
      have hbyte := byteBits_writeInside data[startOffset / 8] (source 0)
        (show startOffset % 8 + bitsCount ≤ 8 by omega)
      rw [htake 0 (by omega), Nat.mul_zero] at hbyte
      have hwrite := unpack_modify (f := fun dst =>
        dst &&& (leftBitsMask8 (startOffset % 8) |||
            leftBitsClearMask8 (startOffset % 8 + bitsCount)) |||
          (source 0 &&& leftBitsMask8 bitsCount) >>> (startOffset % 8)) hindex hbyte
        (by rw [sourceBits_length]; omega)
      rw [if_pos hinside, hwrite, hsplit]
    · have hindex : startOffset / 8 < data.length := by omega
      have hbyte := byteBits_writeFirst data[startOffset / 8] (source 0)
        (show startOffset % 8 ≤ 8 by omega)
      rw [htake 0 (by omega), Nat.mul_zero] at hbyte
      have hfirst := unpack_modify (f := fun dst =>
        dst &&& leftBitsMask8 (startOffset % 8) |||
          (source 0 &&& leftBitsMask8 (8 - startOffset % 8)) >>> (startOffset % 8)) hindex hbyte
        (by rw [sourceBits_length]; omega)
      rw [hsplit] at hfirst
      have hlength : startOffset + (sourceBits source 0 (8 - startOffset % 8)).length ≤
          (unpack data).length := by
        rw [sourceBits_length, unpack_length]
        omega
      have hdest : 8 * (startOffset / 8 + 1) =
          startOffset + (sourceBits source 0 (8 - startOffset % 8)).length := by
        rw [sourceBits_length]
        omega
      have hcount : 8 * ((bitsCount - (8 - startOffset % 8)) / 8) +
          (bitsCount - (8 - startOffset % 8)) % 8 = bitsCount - (8 - startOffset % 8) :=
        Nat.div_add_mod _ _
      rw [if_neg hinside, unpack_splitBytes source (by omega) (by omega)
        (by rw [List.length_modify]; omega), hfirst, hdest, splice_splice hlength, hcount,
        Nat.mul_zero, sourceBits_append]
      congr 2
      omega

end BinaryVector

end Mast
