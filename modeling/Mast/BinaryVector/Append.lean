import Mast.BinaryVector.Basic

/-!
# Appending to a bit vector

Every way to make a vector longer goes through `append8`, which stores up to eight left aligned bits in the free part of the last byte and, if they do not fit, in a new byte. Two facts are carried through the loops built on it: how many bits the vector then counts, and, for a vector in the intended representation, which bits it holds.
-/

namespace Mast

open BitPacking

namespace BinaryVector

def checkFixedSize : Mutation Unit := do
  let v ← get
  check (v.fixedSize = false)
    (.logicError ("BinaryVector size has been fixed to " ++ toString v.usedBits ++ " bit(s)"))

def checkAtLeast1Bit (numberOfBits : Nat) : Mutation Unit :=
  check (numberOfBits ≠ 0) (.invalidArgument "Number of bits to append must be != 0")

/-- Packs the bits to append on the left of a byte and clears the other ones. -/
def alignLeft (value : Byte) (numberOfBits : Nat) (alignment : BitsAlignment) : Byte :=
  (if alignment = .right then value <<< (8 - numberOfBits) else value) &&&
    leftBitsMask8 numberOfBits

def pushBits (v : BinaryVector) (value : Byte) (numberOfBits : Nat) : BinaryVector :=
  let lastByteBits := v.usedBits % 8
  let freeBits := if lastByteBits = 0 then 8 else 8 - lastByteBits
  let data :=
    if freeBits = 8 then
      v.data ++ [value]
    else if freeBits ≥ numberOfBits then
      v.data.modifyLast (· ||| value >>> (8 - freeBits))
    else
      v.data.modifyLast (· ||| value >>> lastByteBits) ++ [value <<< freeBits]
  { v with data := data, usedBits := (v.usedBits + numberOfBits) % uint32Size }

def BackValid (v : BinaryVector) : Prop := v.usedBits % 8 ≠ 0 → v.data ≠ []

instance (v : BinaryVector) : Decidable v.BackValid :=
  inferInstanceAs (Decidable (_ → _))

/-- `Append(uint8_t, numberOfBits, alignment)`; it reads `m_data.back()` when the last byte is partial. -/
def append8 (value : Byte) (numberOfBits : Nat) (alignment : BitsAlignment) : Mutation Unit := do
  checkAtLeast1Bit numberOfBits
  checkFixedSize
  check (numberOfBits ≤ 8)
    (.invalidArgument "Number of bits to append cannot exceed the number of bits of value")
  let v ← get
  check v.BackValid .undefinedBehaviour
  set (v.pushBits (alignLeft value numberOfBits alignment) numberOfBits)

/-- The loop of `Append(const BinaryVector&)` over the bytes still to append. -/
def appendBytes : List Byte → Nat → Mutation Unit
  | [], bitsToAppend => if bitsToAppend = 0 then pure () else throw .undefinedBehaviour
  | byte :: rest, bitsToAppend => do
    if bitsToAppend ≥ 8 then
      append8 byte 8 .right
      appendBytes rest (bitsToAppend - 8)
    else if bitsToAppend ≠ 0 then
      append8 byte bitsToAppend .left

/-- `Append(const BinaryVector&)`, for an argument that is another object. -/
def append (rhs : BinaryVector) : Mutation Unit := do
  checkFixedSize
  appendBytes rhs.data rhs.usedBits

/-- First loop of `AppendChunks`: drops the chunks that hold no bit to append. The threshold is a multiple of 8, given here divided by 8. -/
def skipChunks (numberOfBits : Nat) (alignment : BitsAlignment) : Nat → Nat → Nat × Nat
  | 0, chunkId => (0, chunkId)
  | threshold + 1, chunkId =>
    if 8 * (threshold + 1) ≥ numberOfBits then
      skipChunks numberOfBits alignment threshold
        (if alignment = .right then chunkId + 1 else chunkId)
    else (threshold + 1, chunkId)

def chunkNumberOfBits (alignment : BitsAlignment) (threshold numberOfBits : Nat) : Nat :=
  if alignment = .left then min numberOfBits 8 else numberOfBits - 8 * threshold

def appendChunk (alignment : BitsAlignment) (chunks : List Byte) (chunkId numberOfBits : Nat) :
    Mutation Unit :=
  match chunks[chunkId]? with
  | none => throw .undefinedBehaviour
  | some bits => append8 bits numberOfBits alignment

/-- Second loop of `AppendChunks`; it stops after the chunk whose threshold is 0. -/
def appendChunksFrom (alignment : BitsAlignment) (chunks : List Byte) :
    Nat → Nat → Nat → Mutation Unit
  | 0, numberOfBits, chunkId => do
    if numberOfBits > 0 then
      appendChunk alignment chunks chunkId (chunkNumberOfBits alignment 0 numberOfBits)
  | threshold + 1, numberOfBits, chunkId => do
    if numberOfBits > 8 * (threshold + 1) then
      let count := chunkNumberOfBits alignment (threshold + 1) numberOfBits
      appendChunk alignment chunks chunkId count
      appendChunksFrom alignment chunks threshold (numberOfBits - count) (chunkId + 1)

/-- `AppendChunks`; the number of available bits is computed in 8 bits. -/
def appendChunks (numberOfBits : Nat) (alignment : BitsAlignment) (chunks : List Byte) :
    Mutation Unit := do
  checkFixedSize
  checkAtLeast1Bit numberOfBits
  let maxBits := chunks.length * 8 % 256
  check (numberOfBits ≤ maxBits)
    (.invalidArgument "Numbers of bits cannot exceed bits count of chunks list")
  let (threshold, chunkId) := skipChunks numberOfBits alignment ((maxBits - 8) / 8) 0
  appendChunksFrom alignment chunks threshold numberOfBits chunkId

def bigEndian (size : Nat) {width : Nat} (value : BitVec width) : List Byte :=
  (List.range size).map fun i => value.extractLsb' (8 * (size - 1 - i)) 8

/-- What the three `Append` from wider integers share. -/
def appendWord (chunks : List Byte) (numberOfBits : Nat) (alignment : BitsAlignment) :
    Mutation Unit := do
  checkFixedSize
  checkAtLeast1Bit numberOfBits
  appendChunks numberOfBits alignment chunks

def append16 (value : BitVec 16) := appendWord (bigEndian 2 value)

def append32 (value : BitVec 32) := appendWord (bigEndian 4 value)

def append64 (value : BitVec 64) := appendWord (bigEndian 8 value)

inductive UIntWidth
  | w8
  | w16
  | w32
  | w64
  deriving DecidableEq, Repr

def UIntWidth.bits : UIntWidth → Nat
  | .w8 => 8
  | .w16 => 16
  | .w32 => 32
  | .w64 => 64

/-- The overload of `Append` for an integer type. -/
def appendUInt : (width : UIntWidth) → BitVec width.bits → Nat → BitsAlignment → Mutation Unit
  | .w8, value => append8 value
  | .w16, value => append16 value
  | .w32, value => append32 value
  | .w64, value => append64 value

def bitByte (bitIsOne : Bool) : Byte := if bitIsOne then 0xFF else 0

/-- Whole bytes inserted at the end of the buffer, wherever the used bits stop. -/
def insertBytes (v : BinaryVector) (value : Byte) (bytesCount : Nat) : BinaryVector :=
  { v with
    data := v.data ++ List.replicate bytesCount value
    usedBits := (v.usedBits + 8 * bytesCount) % uint32Size }

def appendBits (bitIsOne : Bool) (count : Nat) : Mutation Unit := do
  let value := bitByte bitIsOne
  let bytesCount := count / 8
  if bytesCount ≠ 0 then
    modify fun v => v.insertBytes value bytesCount
  if count - 8 * bytesCount ≠ 0 then
    append8 value (count - 8 * bytesCount) .right

/-! ### Checks -/

theorem fixedSize_eq_false {v : BinaryVector} (hv : v.sizeProperty ≠ .fixed) :
    v.fixedSize = false := by
  simpa [fixedSize] using hv

theorem checkFixedSize_run {v : BinaryVector} (hv : v.sizeProperty ≠ .fixed) :
    checkFixedSize.run v = .ok () v := by
  rw [checkFixedSize, EStateM.run_bind, EStateM.run_get]
  exact check_run (fixedSize_eq_false hv) _ v

theorem checkFixedSize_rejects {v : BinaryVector} (hv : v.sizeProperty = .fixed) :
    Rejects checkFixedSize v :=
  Rejects.of_run (EStateM.run_get v) (check_rejects (by simp [fixedSize, hv]) (by simp) v)

theorem checkAtLeast1Bit_run {numberOfBits : Nat} (h : 0 < numberOfBits) (v : BinaryVector) :
    (checkAtLeast1Bit numberOfBits).run v = .ok () v :=
  check_run (by omega) _ v

theorem checkAtLeast1Bit_rejects (v : BinaryVector) : Rejects (checkAtLeast1Bit 0) v :=
  check_rejects (by simp) (by simp) v

/-! ### Eight bits at most -/

theorem ExactBytes.backValid {v : BinaryVector} (hexact : v.ExactBytes) : v.BackValid := by
  intro hrem hempty
  rw [ExactBytes, hempty, bytesFor, List.length_nil] at hexact
  omega

/-- The mutation returns with `count` more bits and the size property it started with. -/
def Lengthens (mutation : Mutation Unit) (v : BinaryVector) (count : Nat) : Prop :=
  ∃ v', mutation.run v = .ok () v' ∧ v'.usedBits = (v.usedBits + count) % uint32Size ∧
    v'.sizeProperty = v.sizeProperty ∧ v'.BackValid

theorem append8_run {v : BinaryVector} {numberOfBits : Nat} (hpos : 0 < numberOfBits)
    (hle : numberOfBits ≤ 8) (hfree : v.sizeProperty ≠ .fixed) (hback : v.BackValid)
    (value : Byte) (alignment : BitsAlignment) :
    (append8 value numberOfBits alignment).run v =
      .ok () (v.pushBits (alignLeft value numberOfBits alignment) numberOfBits) := by
  simp only [append8, EStateM.run_bind, checkAtLeast1Bit_run hpos, checkFixedSize_run hfree,
    check_run hle, EStateM.run_get, check_run hback, EStateM.run_set]

theorem append8_rejects {v : BinaryVector} {numberOfBits : Nat}
    (hrejects : v.sizeProperty = .fixed ∨ numberOfBits = 0 ∨ 8 < numberOfBits) (value : Byte)
    (alignment : BitsAlignment) : Rejects (append8 value numberOfBits alignment) v := by
  by_cases hnone : numberOfBits = 0
  · subst hnone
    exact (checkAtLeast1Bit_rejects v).bind _
  · refine Rejects.of_run (checkAtLeast1Bit_run (by omega) v) ?_
    by_cases hfixed : v.sizeProperty = .fixed
    · exact (checkFixedSize_rejects hfixed).bind _
    · have hmany : 8 < numberOfBits := by tauto
      refine Rejects.of_run (checkFixedSize_run hfixed) ?_
      exact (check_rejects (by omega) (by simp) v).bind _

theorem pushBits_usedBits (v : BinaryVector) (value : Byte) (numberOfBits : Nat) :
    (v.pushBits value numberOfBits).usedBits = (v.usedBits + numberOfBits) % uint32Size := rfl

private theorem modifyLast_ne_nil {data : List Byte} (f : Byte → Byte) (h : data ≠ []) :
    data.modifyLast f ≠ [] := by
  obtain ⟨front, last, rfl⟩ := (List.eq_nil_or_concat' data).resolve_left h
  simp [List.modifyLast_concat]

theorem pushBits_backValid {v : BinaryVector} (hback : v.BackValid) (value : Byte)
    (numberOfBits : Nat) : (v.pushBits value numberOfBits).BackValid := by
  intro _
  simp only [pushBits]
  by_cases haligned : v.usedBits % 8 = 0
  · simp [haligned]
  · have hfree : ¬8 - v.usedBits % 8 = 8 := by omega
    simp only [haligned, if_false, hfree]
    split
    · exact modifyLast_ne_nil _ (hback haligned)
    · simp

theorem append8_lengthens {v : BinaryVector} {numberOfBits : Nat} (hpos : 0 < numberOfBits)
    (hle : numberOfBits ≤ 8) (hfree : v.sizeProperty ≠ .fixed) (hback : v.BackValid)
    (value : Byte) (alignment : BitsAlignment) :
    Lengthens (append8 value numberOfBits alignment) v numberOfBits :=
  ⟨_, append8_run hpos hle hfree hback value alignment, rfl, rfl, pushBits_backValid hback _ _⟩

/-- The bits `append8` takes from its argument. -/
def alignedBits (value : Byte) (numberOfBits : Nat) : BitsAlignment → List Bool
  | .left => (byteBits value).take numberOfBits
  | .right => (byteBits value).drop (8 - numberOfBits)

theorem alignedBits_length {numberOfBits : Nat} (hle : numberOfBits ≤ 8) (value : Byte)
    (alignment : BitsAlignment) :
    (alignedBits value numberOfBits alignment).length = numberOfBits := by
  cases alignment <;> simp [alignedBits] <;> omega

theorem byteBits_alignLeft {numberOfBits : Nat} (hle : numberOfBits ≤ 8) (value : Byte)
    (alignment : BitsAlignment) :
    byteBits (alignLeft value numberOfBits alignment) =
      alignedBits value numberOfBits alignment ++ List.replicate (8 - numberOfBits) false := by
  rw [alignLeft, byteBits_and_leftBitsMask8 _ hle]
  cases alignment with
  | left => simp [alignedBits]
  | right =>
    rw [if_pos rfl, byteBits_shiftLeft _ (by omega), List.take_left' (by simp; omega)]
    rfl

theorem pushBits_aligned {v : BinaryVector} (haligned : v.usedBits % 8 = 0) (value : Byte)
    (numberOfBits : Nat) : (v.pushBits value numberOfBits).data = v.data ++ [value] := by
  simp [pushBits, haligned]

theorem pushBits_fits {v : BinaryVector} {numberOfBits : Nat} (hrem : v.usedBits % 8 ≠ 0)
    (hfits : v.usedBits % 8 + numberOfBits ≤ 8) (value : Byte) :
    (v.pushBits value numberOfBits).data =
      v.data.modifyLast (· ||| value >>> (v.usedBits % 8)) := by
  have hfree : ¬8 - v.usedBits % 8 = 8 := by omega
  have hroom : 8 - v.usedBits % 8 ≥ numberOfBits := by omega
  have hshift : 8 - (8 - v.usedBits % 8) = v.usedBits % 8 := by omega
  simp only [pushBits, hrem, if_false, hfree, hroom, if_true, hshift]

theorem pushBits_splits {v : BinaryVector} {numberOfBits : Nat} (hrem : v.usedBits % 8 ≠ 0)
    (hsplits : 8 < v.usedBits % 8 + numberOfBits) (value : Byte) :
    (v.pushBits value numberOfBits).data =
      v.data.modifyLast (· ||| value >>> (v.usedBits % 8)) ++
        [value <<< (8 - v.usedBits % 8)] := by
  have hfree : ¬8 - v.usedBits % 8 = 8 := by omega
  have hroom : ¬8 - v.usedBits % 8 ≥ numberOfBits := by omega
  simp only [pushBits, hrem, if_false, hfree, hroom]

theorem pushBits_ofBits {l added : List Bool} {value : Byte} (hle : added.length ≤ 8)
    (hvalue : byteBits value = added ++ List.replicate (8 - added.length) false)
    (hpos : 0 < added.length) (hbound : l.length + added.length < uint32Size)
    (p : SizeProperty) :
    (ofBits l p).pushBits value added.length = ofBits (l ++ added) p := by
  have hused : ((ofBits l p).pushBits value added.length).usedBits = (l ++ added).length := by
    rw [pushBits_usedBits, ofBits_usedBits, Nat.mod_eq_of_lt hbound, List.length_append]
  suffices hdata : ((ofBits l p).pushBits value added.length).data = pack (l ++ added) by
    rw [ofBits.eq_1 (l ++ added), ← hdata, ← hused]
    rfl
  by_cases haligned : l.length % 8 = 0
  · have hpacked : [value] = pack added := by
      refine eq_pack (8 - added.length) ?_ (by omega)
      rw [unpack_cons, unpack_nil, List.append_nil, hvalue]
    rw [pushBits_aligned haligned, pack_append haligned, ofBits_data, hpacked]
  · obtain ⟨front, last, tail, hpack, hl, htail, hlast⟩ := exists_partial_byte haligned
    have hmerge := byteBits_or_shiftRight hlast value
    rw [htail] at hmerge
    have hlt : l.length % 8 < 8 := Nat.mod_lt _ (by decide)
    by_cases hfits : l.length % 8 + added.length ≤ 8
    · rw [pushBits_fits haligned hfits, ofBits_data, ofBits_usedBits, hpack,
        List.modifyLast_concat]
      refine eq_pack (8 - (l.length % 8 + added.length)) ?_ (by omega)
      have htake : (byteBits value).take (8 - l.length % 8) =
          added ++ List.replicate (8 - (l.length % 8 + added.length)) false := by
        rw [hvalue, List.take_append, List.take_of_length_le (by omega), List.take_replicate]
        congr 2
        omega
      rw [unpack_append, unpack_cons, unpack_nil, List.append_nil, hmerge, htake, hl]
      simp only [List.append_assoc]
    · rw [pushBits_splits haligned (by simp; omega), ofBits_data, ofBits_usedBits, hpack,
        List.modifyLast_concat]
      refine eq_pack (16 - (l.length % 8 + added.length)) ?_ (by omega)
      rw [unpack_append, unpack_append, unpack_cons, unpack_cons, unpack_nil, List.append_nil,
        List.append_nil, hmerge, byteBits_shiftLeft _ (by omega)]
      have hzeros : List.replicate (16 - (l.length % 8 + added.length)) false =
          List.replicate (8 - added.length) false ++ List.replicate (8 - l.length % 8) false := by
        rw [← List.replicate_add]
        congr 1
        omega
      calc
        unpack front ++ (tail ++ (byteBits value).take (8 - l.length % 8)) ++
              ((byteBits value).drop (8 - l.length % 8) ++
                List.replicate (8 - l.length % 8) false)
            = (unpack front ++ tail) ++
              ((byteBits value).take (8 - l.length % 8) ++
                (byteBits value).drop (8 - l.length % 8)) ++
                  List.replicate (8 - l.length % 8) false := by
          simp only [List.append_assoc]
        _ = l ++ (added ++ List.replicate (8 - added.length) false) ++
              List.replicate (8 - l.length % 8) false := by
          rw [← hl, List.take_append_drop, ← hvalue]
        _ = l ++ added ++ List.replicate (16 - (l.length % 8 + added.length)) false := by
          rw [hzeros]
          simp only [List.append_assoc]

theorem ofBits_backValid (l : List Bool) (p : SizeProperty) : (ofBits l p).BackValid :=
  (ofBits_wellFormed l p).exactBytes.backValid

theorem append8_ofBits {l : List Bool} {p : SizeProperty} {numberOfBits : Nat}
    (hpos : 0 < numberOfBits) (hle : numberOfBits ≤ 8) (hfree : p ≠ .fixed)
    (hbound : l.length + numberOfBits < uint32Size) (value : Byte) (alignment : BitsAlignment) :
    (append8 value numberOfBits alignment).run (ofBits l p) =
      .ok () (ofBits (l ++ alignedBits value numberOfBits alignment) p) := by
  have hlength := alignedBits_length hle value alignment
  have haligned := byteBits_alignLeft hle value alignment
  have hpush := pushBits_ofBits (l := l) (hlength.trans_le hle) (by rw [hlength]; exact haligned)
    (by omega) (by omega) p
  rw [hlength] at hpush
  rw [append8_run hpos hle hfree (ofBits_backValid l p), hpush]

theorem append8_byte_ofBits {l : List Bool} {p : SizeProperty} (hfree : p ≠ .fixed)
    (hbound : l.length + 8 < uint32Size) (value : Byte) (alignment : BitsAlignment) :
    (append8 value 8 alignment).run (ofBits l p) = .ok () (ofBits (l ++ byteBits value) p) := by
  have hall : alignedBits value 8 alignment = byteBits value := by
    cases alignment
    · simp [alignedBits]
    · rw [alignedBits, List.take_of_length_le (by simp)]
  rw [append8_ofBits (by decide) (by decide) hfree hbound, hall]

/-! ### Another vector -/

theorem appendBytes_lengthens {bytes : List Byte} {bitsToAppend : Nat}
    (hbytes : bitsToAppend ≤ 8 * bytes.length) {v : BinaryVector}
    (hfree : v.sizeProperty ≠ .fixed) (hback : v.BackValid) (hused : v.usedBits < uint32Size) :
    Lengthens (appendBytes bytes bitsToAppend) v bitsToAppend := by
  induction bytes generalizing bitsToAppend v with
  | nil =>
    have hnone : bitsToAppend = 0 := by simpa using hbytes
    subst hnone
    exact ⟨v, rfl, by rw [Nat.add_zero, Nat.mod_eq_of_lt hused], rfl, hback⟩
  | cons byte rest ih =>
    rw [List.length_cons] at hbytes
    by_cases hwhole : bitsToAppend ≥ 8
    · obtain ⟨v₁, hrun₁, hused₁, hprop₁, hback₁⟩ :=
        append8_lengthens (show 0 < 8 by decide) (by decide) hfree hback byte .right
      obtain ⟨v₂, hrun₂, hused₂, hprop₂, hback₂⟩ :=
        ih (show bitsToAppend - 8 ≤ _ by omega) (by rwa [hprop₁]) hback₁
          (by rw [hused₁]; exact Nat.mod_lt _ (by decide))
      refine ⟨v₂, ?_, ?_, hprop₂.trans hprop₁, hback₂⟩
      · simp only [appendBytes, if_pos hwhole, EStateM.run_bind, hrun₁, hrun₂]
      · rw [hused₂, hused₁, Nat.mod_add_mod]
        congr 1
        omega
    · by_cases hnone : bitsToAppend = 0
      · subst hnone
        exact ⟨v, rfl, by rw [Nat.add_zero, Nat.mod_eq_of_lt hused], rfl, hback⟩
      · have hlast := append8_lengthens (Nat.pos_of_ne_zero hnone) (by omega)
          hfree hback byte .left
        rwa [appendBytes, if_neg hwhole, if_pos hnone]

theorem appendBytes_ofBits {bytes : List Byte} {bitsToAppend : Nat}
    (hbytes : bitsToAppend ≤ 8 * bytes.length) {l : List Bool} {p : SizeProperty}
    (hfree : p ≠ .fixed) (hbound : l.length + bitsToAppend < uint32Size) :
    (appendBytes bytes bitsToAppend).run (ofBits l p) =
      .ok () (ofBits (l ++ (unpack bytes).take bitsToAppend) p) := by
  induction bytes generalizing bitsToAppend l with
  | nil =>
    have hnone : bitsToAppend = 0 := by simpa using hbytes
    subst hnone
    simp [appendBytes]
  | cons byte rest ih =>
    rw [List.length_cons] at hbytes
    by_cases hwhole : bitsToAppend ≥ 8
    · have hfirst := append8_byte_ofBits (l := l) hfree (by omega) byte .right
      have hrest := ih (show bitsToAppend - 8 ≤ _ by omega) (l := l ++ byteBits byte)
        (by simp; omega)
      have htake : (unpack (byte :: rest)).take bitsToAppend =
          byteBits byte ++ (unpack rest).take (bitsToAppend - 8) := by
        rw [unpack_cons, List.take_append, List.take_of_length_le (by simp; omega),
          byteBits_length]
      simp only [appendBytes, if_pos hwhole, EStateM.run_bind, hfirst, hrest, htake,
        List.append_assoc]
    · by_cases hnone : bitsToAppend = 0
      · subst hnone
        simp [appendBytes]
      · have htake : (unpack (byte :: rest)).take bitsToAppend =
            alignedBits byte bitsToAppend .left := by
          rw [unpack_cons, List.take_append_of_le_length (by simp; omega), alignedBits]
        rw [appendBytes, if_neg hwhole, if_pos hnone, htake]
        exact append8_ofBits (by omega) (by omega) hfree hbound byte .left

/-- Bits cannot be appended past the last byte of the argument. -/
theorem appendBytes_within {bytes : List Byte} {bitsToAppend : Nat} {v v' : BinaryVector}
    (hrun : (appendBytes bytes bitsToAppend).run v = .ok () v') :
    bitsToAppend ≤ 8 * bytes.length := by
  induction bytes generalizing bitsToAppend v with
  | nil =>
    by_cases hnone : bitsToAppend = 0
    · omega
    · rw [appendBytes, if_neg hnone] at hrun
      cases hrun
  | cons byte rest ih =>
    rw [List.length_cons]
    by_cases hwhole : bitsToAppend ≥ 8
    · rw [appendBytes, if_pos hwhole, EStateM.run_bind] at hrun
      split at hrun
      · have hrest := ih hrun
        omega
      · cases hrun
    · omega

/-- Bits that the bytes do not have are read behind them. -/
theorem appendBytes_undefined {bytes : List Byte} {bitsToAppend : Nat}
    (hbytes : 8 * bytes.length < bitsToAppend) {l : List Bool} {p : SizeProperty}
    (hfree : p ≠ .fixed) (hbound : l.length + bitsToAppend < uint32Size) :
    ∃ v', (appendBytes bytes bitsToAppend).run (ofBits l p) = .error .undefinedBehaviour v' := by
  induction bytes generalizing bitsToAppend l with
  | nil =>
    refine ⟨ofBits l p, ?_⟩
    rw [appendBytes, if_neg (show ¬bitsToAppend = 0 by omega)]
    rfl
  | cons byte rest ih =>
    rw [List.length_cons] at hbytes
    have hbyte := append8_ofBits (show 0 < 8 by omega) (Nat.le_refl 8) hfree
      (show l.length + 8 < uint32Size by omega) byte .right
    have hlength := alignedBits_length (Nat.le_refl 8) byte .right
    obtain ⟨v', hrest⟩ := ih (show 8 * rest.length < bitsToAppend - 8 by omega)
      (show (l ++ alignedBits byte 8 .right).length + (bitsToAppend - 8) < uint32Size by
        rw [List.length_append, hlength]
        omega)
    refine ⟨v', ?_⟩
    rw [appendBytes, if_pos (show bitsToAppend ≥ 8 by omega), EStateM.run_bind, hbyte]
    exact hrest

theorem append_rejects {v : BinaryVector} (hfixed : v.sizeProperty = .fixed)
    (rhs : BinaryVector) : Rejects (append rhs) v :=
  (checkFixedSize_rejects hfixed).bind _

theorem append_lengthens {v rhs : BinaryVector} (hrhs : rhs.ExactBytes)
    (hfree : v.sizeProperty ≠ .fixed) (hback : v.BackValid) (hused : v.usedBits < uint32Size) :
    Lengthens (append rhs) v rhs.usedBits := by
  have hbytes : rhs.usedBits ≤ 8 * rhs.data.length := by
    rw [hrhs]
    exact le_bytesFor _
  obtain ⟨v', hrun, hrest⟩ := appendBytes_lengthens hbytes hfree hback hused
  refine ⟨v', ?_, hrest⟩
  simp only [append, EStateM.run_bind, checkFixedSize_run hfree, hrun]

theorem append_ofBits {l : List Bool} {p : SizeProperty} {rhs : BinaryVector}
    (hrhs : rhs.ExactBytes) (hfree : p ≠ .fixed)
    (hbound : l.length + rhs.usedBits < uint32Size) :
    (append rhs).run (ofBits l p) = .ok () (ofBits (l ++ rhs.bits) p) := by
  have hbytes : rhs.usedBits ≤ 8 * rhs.data.length := by
    rw [hrhs]
    exact le_bytesFor _
  simp only [append, EStateM.run_bind, checkFixedSize_run (v := ofBits l p) hfree,
    appendBytes_ofBits hbytes hfree hbound, bits]

/-! ### Chunks of an integer -/

/-- After `skipChunks` the threshold is the last multiple of 8 below the number of bits. -/
theorem skipChunks_eq {numberOfBits threshold : Nat} (alignment : BitsAlignment) (chunkId : Nat)
    (hpos : 0 < numberOfBits) (hle : numberOfBits ≤ 8 * (threshold + 1)) :
    skipChunks numberOfBits alignment threshold chunkId =
      ((numberOfBits - 1) / 8,
        if alignment = .right then chunkId + (threshold - (numberOfBits - 1) / 8)
        else chunkId) := by
  induction threshold generalizing chunkId with
  | zero =>
    have : (numberOfBits - 1) / 8 = 0 := by omega
    simp [skipChunks, this]
  | succ threshold ih =>
    rw [skipChunks]
    by_cases hskip : 8 * (threshold + 1) ≥ numberOfBits
    · rw [if_pos hskip, ih _ (by omega)]
      cases alignment
      · have : chunkId + 1 + (threshold - (numberOfBits - 1) / 8) =
            chunkId + (threshold + 1 - (numberOfBits - 1) / 8) := by omega
        simp [this]
      · simp
    · have : (numberOfBits - 1) / 8 = threshold + 1 := by omega
      simp [hskip, this]

theorem chunkNumberOfBits_spec (alignment : BitsAlignment) {threshold numberOfBits : Nat}
    (hlow : 8 * threshold < numberOfBits) (hhigh : numberOfBits ≤ 8 * (threshold + 1)) :
    0 < chunkNumberOfBits alignment threshold numberOfBits ∧
      chunkNumberOfBits alignment threshold numberOfBits ≤ 8 ∧
      chunkNumberOfBits alignment threshold numberOfBits ≤ numberOfBits ∧
      8 * (threshold - 1) ≤ numberOfBits - chunkNumberOfBits alignment threshold numberOfBits ∧
      numberOfBits - chunkNumberOfBits alignment threshold numberOfBits ≤ 8 * threshold ∧
      (0 < threshold →
        8 * (threshold - 1) < numberOfBits - chunkNumberOfBits alignment threshold numberOfBits) := by
  unfold chunkNumberOfBits
  split <;> omega

theorem appendChunksFrom_lengthens {alignment : BitsAlignment} {chunks : List Byte}
    {threshold numberOfBits chunkId : Nat} (hlow : 8 * threshold < numberOfBits)
    (hhigh : numberOfBits ≤ 8 * (threshold + 1)) (hchunks : chunkId + threshold < chunks.length)
    {v : BinaryVector} (hfree : v.sizeProperty ≠ .fixed) (hback : v.BackValid) :
    Lengthens (appendChunksFrom alignment chunks threshold numberOfBits chunkId) v
      numberOfBits := by
  have hchunk : chunkId < chunks.length := by omega
  induction threshold generalizing numberOfBits chunkId v with
  | zero =>
    obtain ⟨hpos, hle, hsub, hlast⟩ := chunkNumberOfBits_spec alignment hlow hhigh
    have hcount : chunkNumberOfBits alignment 0 numberOfBits = numberOfBits := by omega
    rw [appendChunksFrom, if_pos (by omega), appendChunk, List.getElem?_eq_getElem hchunk, hcount]
    exact append8_lengthens (by omega) (by omega) hfree hback _ alignment
  | succ threshold ih =>
    obtain ⟨hpos, hle, hsub, -, hnextHigh, hnextLow⟩ :=
      chunkNumberOfBits_spec alignment hlow hhigh
    obtain ⟨v₁, hrun₁, hused₁, hprop₁, hback₁⟩ := append8_lengthens hpos hle hfree hback
      (chunks[chunkId]) alignment
    obtain ⟨v₂, hrun₂, hused₂, hprop₂, hback₂⟩ := ih (hnextLow (by omega)) hnextHigh
      (show chunkId + 1 + threshold < _ by omega) (by rwa [hprop₁]) hback₁ (by omega)
    refine ⟨v₂, ?_, ?_, hprop₂.trans hprop₁, hback₂⟩
    · simp only [appendChunksFrom, gt_iff_lt, if_pos hlow, appendChunk,
        List.getElem?_eq_getElem hchunk, EStateM.run_bind, hrun₁, hrun₂]
    · rw [hused₂, hused₁, Nat.mod_add_mod]
      congr 1
      omega

/-- The bits `AppendChunks` takes from the chunks it starts from. -/
def chunkBits (alignment : BitsAlignment) (threshold numberOfBits : Nat) (chunks : List Byte) :
    List Bool :=
  match alignment with
  | .left => (unpack chunks).take numberOfBits
  | .right => ((unpack chunks).take (8 * (threshold + 1))).drop (8 * (threshold + 1) - numberOfBits)

theorem chunkBits_length {alignment : BitsAlignment} {threshold numberOfBits : Nat}
    {chunks : List Byte} (hhigh : numberOfBits ≤ 8 * (threshold + 1))
    (hchunks : threshold < chunks.length) :
    (chunkBits alignment threshold numberOfBits chunks).length = numberOfBits := by
  cases alignment <;> simp [chunkBits] <;> omega

theorem chunkBits_zero {alignment : BitsAlignment} {numberOfBits : Nat} {byte : Byte}
    {rest : List Byte} (hle : numberOfBits ≤ 8) :
    chunkBits alignment 0 numberOfBits (byte :: rest) = alignedBits byte numberOfBits alignment := by
  cases alignment with
  | left => exact List.take_append_of_le_length (by simpa using hle)
  | right =>
    have htake : (unpack (byte :: rest)).take (8 * (0 + 1)) = byteBits byte :=
      List.take_left' (by simp)
    simp only [chunkBits, htake, alignedBits]

theorem chunkBits_succ {alignment : BitsAlignment} {threshold numberOfBits : Nat} {byte : Byte}
    {rest : List Byte} (hlow : 8 * (threshold + 1) < numberOfBits)
    (hhigh : numberOfBits ≤ 8 * (threshold + 2)) :
    chunkBits alignment (threshold + 1) numberOfBits (byte :: rest) =
      alignedBits byte (chunkNumberOfBits alignment (threshold + 1) numberOfBits) alignment ++
        chunkBits alignment threshold
          (numberOfBits - chunkNumberOfBits alignment (threshold + 1) numberOfBits) rest := by
  cases alignment with
  | left =>
    have hcount : chunkNumberOfBits .left (threshold + 1) numberOfBits = 8 := by
      rw [chunkNumberOfBits, if_pos rfl]
      omega
    simp only [hcount, chunkBits, alignedBits, unpack_cons, List.take_append, byteBits_length]
    rw [List.take_of_length_le (by simp; omega), List.take_of_length_le (i := 8) (by simp)]
  | right =>
    have hcount : chunkNumberOfBits .right (threshold + 1) numberOfBits =
        numberOfBits - 8 * (threshold + 1) := rfl
    have hrest : numberOfBits - (numberOfBits - 8 * (threshold + 1)) = 8 * (threshold + 1) := by
      omega
    have hskip : 8 * (threshold + 1 + 1) - numberOfBits =
        8 - (numberOfBits - 8 * (threshold + 1)) := by omega
    have htake : (unpack (byte :: rest)).take (8 * (threshold + 1 + 1)) =
        byteBits byte ++ (unpack rest).take (8 * (threshold + 1)) := by
      rw [unpack_cons, List.take_append, List.take_of_length_le (by simp), byteBits_length]
      congr 2
    simp only [hcount, chunkBits, alignedBits, hrest, hskip, htake, Nat.sub_self, List.drop_zero]
    exact List.drop_append_of_le_length (by simp)

theorem appendChunksFrom_ofBits {alignment : BitsAlignment} {chunks : List Byte}
    {threshold numberOfBits chunkId : Nat} (hlow : 8 * threshold < numberOfBits)
    (hhigh : numberOfBits ≤ 8 * (threshold + 1)) (hchunks : chunkId + threshold < chunks.length)
    {l : List Bool} {p : SizeProperty} (hfree : p ≠ .fixed)
    (hbound : l.length + numberOfBits < uint32Size) :
    (appendChunksFrom alignment chunks threshold numberOfBits chunkId).run (ofBits l p) =
      .ok () (ofBits (l ++ chunkBits alignment threshold numberOfBits (chunks.drop chunkId)) p) := by
  have hchunk : chunkId < chunks.length := by omega
  have hdrop := List.drop_eq_getElem_cons hchunk
  induction threshold generalizing numberOfBits chunkId l with
  | zero =>
    obtain ⟨hpos, hle, hsub, hlast⟩ := chunkNumberOfBits_spec alignment hlow hhigh
    have hcount : chunkNumberOfBits alignment 0 numberOfBits = numberOfBits := by omega
    rw [hdrop, chunkBits_zero hhigh]
    rw [appendChunksFrom, if_pos (by omega), appendChunk, List.getElem?_eq_getElem hchunk,
      hcount]
    exact append8_ofBits (by omega) (by omega) hfree hbound _ alignment
  | succ threshold ih =>
    obtain ⟨hpos, hle, hsub, -, hnextHigh, hnextLow⟩ :=
      chunkNumberOfBits_spec alignment hlow hhigh
    have hfirst := append8_ofBits (l := l) hpos hle hfree (by omega) (chunks[chunkId])
      alignment
    have hlength := alignedBits_length hle (chunks[chunkId]) alignment
    have hrest := ih (hnextLow (by omega)) hnextHigh (show chunkId + 1 + threshold < _ by omega)
      (l := l ++ alignedBits chunks[chunkId] (chunkNumberOfBits alignment (threshold + 1)
        numberOfBits) alignment)
      (by rw [List.length_append, hlength]; omega) (by omega)
      (List.drop_eq_getElem_cons (by omega))
    rw [hdrop, chunkBits_succ hlow hhigh]
    simp only [appendChunksFrom, gt_iff_lt, if_pos hlow, appendChunk,
      List.getElem?_eq_getElem hchunk, EStateM.run_bind, hfirst, hrest, List.append_assoc]

/-- What `appendChunks` and the `Append` from integers do with an accepted number of bits. -/
theorem appendChunks_eq {numberOfBits : Nat} (alignment : BitsAlignment) {chunks : List Byte}
    (hpos : 0 < numberOfBits) (hmax : numberOfBits ≤ chunks.length * 8 % 256) {v : BinaryVector}
    (hfree : v.sizeProperty ≠ .fixed) :
    ∃ chunkId, chunkId + (numberOfBits - 1) / 8 < chunks.length ∧
      (appendChunks numberOfBits alignment chunks).run v =
        (appendChunksFrom alignment chunks ((numberOfBits - 1) / 8) numberOfBits chunkId).run v := by
  have hskip := skipChunks_eq alignment 0 hpos
    (show numberOfBits ≤ 8 * ((chunks.length * 8 % 256 - 8) / 8 + 1) by omega)
  refine ⟨if alignment = .right then
    0 + ((chunks.length * 8 % 256 - 8) / 8 - (numberOfBits - 1) / 8) else 0, ?_, ?_⟩
  · split <;> omega
  · simp only [appendChunks, EStateM.run_bind, checkFixedSize_run hfree, checkAtLeast1Bit_run hpos,
      check_run hmax, hskip]

theorem appendChunks_lengthens {numberOfBits : Nat} {alignment : BitsAlignment}
    {chunks : List Byte} (hpos : 0 < numberOfBits)
    (hmax : numberOfBits ≤ chunks.length * 8 % 256) {v : BinaryVector}
    (hfree : v.sizeProperty ≠ .fixed) (hback : v.BackValid) :
    Lengthens (appendChunks numberOfBits alignment chunks) v numberOfBits := by
  obtain ⟨chunkId, hchunks, hrun⟩ := appendChunks_eq alignment hpos hmax hfree
  rw [Lengthens, hrun]
  exact appendChunksFrom_lengthens (by omega) (by omega) hchunks hfree hback

theorem appendChunks_ofBits {numberOfBits : Nat} (alignment : BitsAlignment)
    {chunks : List Byte} (hpos : 0 < numberOfBits)
    (hmax : numberOfBits ≤ chunks.length * 8 % 256) {l : List Bool} {p : SizeProperty}
    (hfree : p ≠ .fixed) (hbound : l.length + numberOfBits < uint32Size) :
    ∃ added, added.length = numberOfBits ∧
      (appendChunks numberOfBits alignment chunks).run (ofBits l p) =
        .ok () (ofBits (l ++ added) p) := by
  obtain ⟨chunkId, hchunks, hrun⟩ :=
    appendChunks_eq (v := ofBits l p) alignment hpos hmax hfree
  refine ⟨chunkBits alignment ((numberOfBits - 1) / 8) numberOfBits (chunks.drop chunkId),
    chunkBits_length (by omega) (by rw [List.length_drop]; omega), ?_⟩
  rw [hrun]
  exact appendChunksFrom_ofBits (by omega) (by omega) hchunks hfree hbound

theorem appendChunks_right {numberOfBits : Nat} {chunks : List Byte} (hpos : 0 < numberOfBits)
    (hle : numberOfBits ≤ 8 * chunks.length) (hsmall : 8 * chunks.length < 256) {l : List Bool}
    {p : SizeProperty} (hfree : p ≠ .fixed) (hbound : l.length + numberOfBits < uint32Size) :
    (appendChunks numberOfBits .right chunks).run (ofBits l p) =
      .ok () (ofBits (l ++ (unpack chunks).drop (8 * chunks.length - numberOfBits)) p) := by
  have hmax : chunks.length * 8 % 256 = 8 * chunks.length := by omega
  have hmaxBits : numberOfBits ≤ chunks.length * 8 % 256 := by omega
  have hskip := skipChunks_eq .right 0 hpos
    (show numberOfBits ≤ 8 * ((8 * chunks.length - 8) / 8 + 1) by omega)
  generalize hchunkId : 0 + ((8 * chunks.length - 8) / 8 - (numberOfBits - 1) / 8) = chunkId at hskip
  have hfrom := @appendChunksFrom_ofBits .right chunks ((numberOfBits - 1) / 8) numberOfBits chunkId
    (by omega) (by omega) (by omega) l p hfree hbound
  have hbits : chunkBits .right ((numberOfBits - 1) / 8) numberOfBits (chunks.drop chunkId) =
      (unpack chunks).drop (8 * chunks.length - numberOfBits) := by
    have hwhole : ((unpack chunks).drop (8 * chunkId)).length ≤ 8 * ((numberOfBits - 1) / 8 + 1) := by
      rw [List.length_drop, unpack_length]
      omega
    rw [chunkBits, unpack_drop, List.take_of_length_le hwhole, List.drop_drop]
    congr 1
    omega
  rw [hbits] at hfrom
  simp only [appendChunks, EStateM.run_bind, checkFixedSize_run (v := ofBits l p) hfree,
    checkAtLeast1Bit_run hpos, check_run hmaxBits]
  simp only [hmax, hskip, if_pos, hfrom]

theorem appendChunks_rejects {v : BinaryVector} {numberOfBits : Nat} {chunks : List Byte}
    (hrejects : v.sizeProperty = .fixed ∨ numberOfBits = 0 ∨
      chunks.length * 8 % 256 < numberOfBits) (alignment : BitsAlignment) :
    Rejects (appendChunks numberOfBits alignment chunks) v := by
  by_cases hfixed : v.sizeProperty = .fixed
  · exact (checkFixedSize_rejects hfixed).bind _
  · refine Rejects.of_run (checkFixedSize_run hfixed) ?_
    by_cases hnone : numberOfBits = 0
    · subst hnone
      exact (checkAtLeast1Bit_rejects v).bind _
    · have hmany : chunks.length * 8 % 256 < numberOfBits := by tauto
      refine Rejects.of_run (checkAtLeast1Bit_run (by omega) v) ?_
      exact (check_rejects (by omega) (by simp) v).bind _

theorem appendWord_run {v : BinaryVector} {chunks : List Byte} {numberOfBits : Nat}
    (hpos : 0 < numberOfBits) (hfree : v.sizeProperty ≠ .fixed) (alignment : BitsAlignment) :
    (appendWord chunks numberOfBits alignment).run v =
      (appendChunks numberOfBits alignment chunks).run v := by
  simp only [appendWord, EStateM.run_bind, checkFixedSize_run hfree, checkAtLeast1Bit_run hpos]

@[simp] theorem bigEndian_length (size : Nat) {width : Nat} (value : BitVec width) :
    (bigEndian size value).length = size := by
  simp [bigEndian]

theorem UIntWidth.bits_pos (width : UIntWidth) : 0 < width.bits := by
  cases width <;> decide

theorem UIntWidth.bits_le (width : UIntWidth) : width.bits ≤ 64 := by
  cases width <;> decide

/-- Every overload but the one for bytes goes through `appendWord`. -/
theorem appendUInt_eq {width : UIntWidth} (hwidth : width ≠ .w8) (value : BitVec width.bits) :
    ∃ chunks : List Byte, chunks.length * 8 = width.bits ∧
      appendUInt width value = appendWord chunks := by
  cases width with
  | w8 => exact absurd rfl hwidth
  | w16 => exact ⟨_, congrArg (· * 8) (bigEndian_length 2 value), rfl⟩
  | w32 => exact ⟨_, congrArg (· * 8) (bigEndian_length 4 value), rfl⟩
  | w64 => exact ⟨_, congrArg (· * 8) (bigEndian_length 8 value), rfl⟩

theorem appendUInt_rejects {width : UIntWidth} {numberOfBits : Nat} {v : BinaryVector}
    (hrejects : v.sizeProperty = .fixed ∨ numberOfBits = 0 ∨ width.bits < numberOfBits)
    (value : BitVec width.bits) (alignment : BitsAlignment) :
    Rejects (appendUInt width value numberOfBits alignment) v := by
  by_cases hwidth : width = .w8
  · subst hwidth
    exact append8_rejects hrejects value alignment
  · obtain ⟨chunks, hchunks, heq⟩ := appendUInt_eq hwidth value
    have hbits := width.bits_le
    rw [heq]
    by_cases hfixed : v.sizeProperty = .fixed
    · exact (checkFixedSize_rejects hfixed).bind _
    · refine Rejects.of_run (checkFixedSize_run hfixed) ?_
      by_cases hnone : numberOfBits = 0
      · subst hnone
        exact (checkAtLeast1Bit_rejects v).bind _
      · have hmany : width.bits < numberOfBits := by tauto
        refine Rejects.of_run (checkAtLeast1Bit_run (by omega) v) ?_
        exact appendChunks_rejects (by omega) alignment

theorem appendUInt_lengthens {width : UIntWidth} {numberOfBits : Nat} (hpos : 0 < numberOfBits)
    (hle : numberOfBits ≤ width.bits) {v : BinaryVector} (hfree : v.sizeProperty ≠ .fixed)
    (hback : v.BackValid) (value : BitVec width.bits) (alignment : BitsAlignment) :
    Lengthens (appendUInt width value numberOfBits alignment) v numberOfBits := by
  by_cases hwidth : width = .w8
  · subst hwidth
    exact append8_lengthens hpos hle hfree hback value alignment
  · obtain ⟨chunks, hchunks, heq⟩ := appendUInt_eq hwidth value
    have hbits := width.bits_le
    rw [heq, Lengthens, appendWord_run hpos hfree]
    exact appendChunks_lengthens hpos (by omega) hfree hback

theorem appendUInt_ofBits {width : UIntWidth} {numberOfBits : Nat} (hpos : 0 < numberOfBits)
    (hle : numberOfBits ≤ width.bits) {l : List Bool} {p : SizeProperty} (hfree : p ≠ .fixed)
    (hbound : l.length + numberOfBits < uint32Size) (value : BitVec width.bits)
    (alignment : BitsAlignment) :
    ∃ added, added.length = numberOfBits ∧
      (appendUInt width value numberOfBits alignment).run (ofBits l p) =
        .ok () (ofBits (l ++ added) p) := by
  by_cases hwidth : width = .w8
  · subst hwidth
    exact ⟨_, alignedBits_length hle value alignment,
      append8_ofBits hpos hle hfree hbound value alignment⟩
  · obtain ⟨chunks, hchunks, heq⟩ := appendUInt_eq hwidth value
    have hbits := width.bits_le
    rw [heq, appendWord_run (v := ofBits l p) hpos hfree]
    exact appendChunks_ofBits _ hpos (by omega) hfree hbound

theorem unpack_bigEndian (size : Nat) (value : BitVec (8 * size)) :
    unpack (bigEndian size value) = (List.range (8 * size)).map value.getMsbD := by
  refine List.ext_getElem (by simp) fun i hi _ => ?_
  have hbit : i < 8 * size := by simpa using hi
  have hbyte : i / 8 < (bigEndian size value).length := by
    rw [bigEndian_length]
    omega
  have hlow : i % 8 < 8 := by omega
  have hindex : 8 * (size - 1 - i / 8) + (8 - 1 - i % 8) = 8 * size - 1 - i := by omega
  rw [unpack_getElem, List.getElem_map, List.getElem_range, List.getD_eq_getElem?_getD,
    List.getElem?_eq_getElem hbyte, Option.getD_some]
  simp only [bigEndian, List.getElem_map, List.getElem_range, BitVec.getMsbD_eq_getLsbD,
    BitVec.getLsbD_extractLsb', hindex]
  simp [hlow, hbit]
  omega

def numberBits (width number : Nat) : List Bool :=
  (List.range width).map fun i => number.testBit (width - 1 - i)

theorem numberBits_length (width number : Nat) : (numberBits width number).length = width := by
  rw [numberBits, List.length_map, List.length_range]

theorem numberBits_injective {width number number' : Nat} (hnumber : number < 2 ^ width)
    (hnumber' : number' < 2 ^ width) (hbits : numberBits width number = numberBits width number') :
    number = number' := by
  apply Nat.eq_of_testBit_eq
  intro i
  by_cases hi : i < width
  · have hbit := List.map_inj_left.mp hbits (width - 1 - i) (List.mem_range.mpr (by omega))
    have hindex : width - 1 - (width - 1 - i) = i := by omega
    rwa [hindex] at hbit
  · have hle : 2 ^ width ≤ 2 ^ i := Nat.pow_le_pow_right (by decide) (by omega)
    rw [Nat.testBit_lt_two_pow (by omega), Nat.testBit_lt_two_pow (by omega)]

theorem append32_right {numberOfBits : Nat} (hpos : 0 < numberOfBits) (hle : numberOfBits ≤ 32)
    {l : List Bool} {p : SizeProperty} (hfree : p ≠ .fixed)
    (hbound : l.length + numberOfBits < uint32Size) (number : Nat) :
    (append32 (BitVec.ofNat 32 number) numberOfBits .right).run (ofBits l p) =
      .ok () (ofBits (l ++ numberBits numberOfBits number) p) := by
  have hchunks : (bigEndian 4 (BitVec.ofNat 32 number)).length = 4 := bigEndian_length 4 _
  have hrun := @appendChunks_right numberOfBits (bigEndian 4 (BitVec.ofNat 32 number)) hpos
    (by omega) (by omega) l p hfree hbound
  have hbits : ((List.range 32).map (BitVec.ofNat 32 number).getMsbD).drop (32 - numberOfBits) =
      numberBits numberOfBits number := by
    refine List.ext_getElem (by simp [numberBits]; omega) fun i hi _ => ?_
    have hbit : i < numberOfBits := by
      simp only [List.length_drop, List.length_map, List.length_range] at hi
      omega
    have hindex : 32 - 1 - (32 - numberOfBits + i) = numberOfBits - 1 - i := by omega
    simp only [numberBits, List.getElem_drop, List.getElem_map, List.getElem_range,
      BitVec.getMsbD_eq_getLsbD, BitVec.getLsbD_ofNat, hindex]
    rw [decide_eq_true (by omega), decide_eq_true (by omega), Bool.true_and, Bool.true_and]
  rw [append32, appendWord_run (v := ofBits l p) hpos hfree, hrun, hchunks,
    unpack_bigEndian 4 (BitVec.ofNat 32 number)]
  exact congrArg (fun added => EStateM.Result.ok () (ofBits (l ++ added) p)) hbits

/-! ### Repeated bits -/

theorem byteBits_bitByte (bitIsOne : Bool) :
    byteBits (bitByte bitIsOne) = List.replicate 8 bitIsOne := by
  cases bitIsOne <;> rfl

theorem insertBytes_zero {v : BinaryVector} (hused : v.usedBits < uint32Size) (value : Byte) :
    v.insertBytes value 0 = v := by
  simp [insertBytes, Nat.mod_eq_of_lt hused]

theorem appendBits_run {v : BinaryVector} (hused : v.usedBits < uint32Size) (bitIsOne : Bool)
    (count : Nat) :
    (appendBits bitIsOne count).run v =
      if count % 8 = 0 then .ok () (v.insertBytes (bitByte bitIsOne) (count / 8))
      else (append8 (bitByte bitIsOne) (count % 8) .right).run
        (v.insertBytes (bitByte bitIsOne) (count / 8)) := by
  have hrest : count - 8 * (count / 8) = count % 8 := by omega
  by_cases hnone : count / 8 = 0
  · by_cases hrem : count % 8 = 0
    · have : count = 0 := by omega
      simp [appendBits, this, insertBytes_zero hused]
    · have hcount : count ≠ 0 := by omega
      have hless : count % 8 = count := by omega
      simp [appendBits, hnone, hcount, hless, insertBytes_zero hused]
  · by_cases hrem : count % 8 = 0
    · simp [appendBits, hnone, hrest, hrem]
    · simp [appendBits, hnone, hrest, hrem]

theorem insertBytes_backValid {v : BinaryVector} (hback : v.BackValid) (value : Byte)
    (bytesCount : Nat) : (v.insertBytes value bytesCount).BackValid := by
  intro hrem
  have : v.usedBits % 8 ≠ 0 := by
    simp only [insertBytes, uint32Size] at hrem
    omega
  simp [insertBytes, hback this]

theorem appendBits_lengthens {v : BinaryVector} (hfree : v.sizeProperty ≠ .fixed)
    (hback : v.BackValid) (hused : v.usedBits < uint32Size) (bitIsOne : Bool) (count : Nat) :
    Lengthens (appendBits bitIsOne count) v count := by
  rw [Lengthens, appendBits_run hused]
  have hback₁ := insertBytes_backValid hback (bitByte bitIsOne) (count / 8)
  by_cases hrem : count % 8 = 0
  · rw [if_pos hrem]
    refine ⟨_, rfl, ?_, rfl, hback₁⟩
    have : 8 * (count / 8) = count := by omega
    simp only [insertBytes, this]
  · rw [if_neg hrem]
    obtain ⟨v', hrun, hused', hprop, hback'⟩ := append8_lengthens
      (v := v.insertBytes (bitByte bitIsOne) (count / 8)) (Nat.pos_of_ne_zero hrem) (by omega) hfree hback₁
      (bitByte bitIsOne) .right
    refine ⟨v', hrun, ?_, hprop, hback'⟩
    rw [hused']
    simp only [insertBytes, Nat.mod_add_mod]
    congr 1
    omega

theorem unpack_replicate_bitByte (bitIsOne : Bool) (count : Nat) :
    unpack (List.replicate count (bitByte bitIsOne)) = List.replicate (8 * count) bitIsOne := by
  induction count with
  | zero => rfl
  | succ count ih =>
    rw [List.replicate_succ, unpack_cons, ih, byteBits_bitByte, ← List.replicate_add]
    congr 1
    omega

/-- Inserting whole bytes is sound after whole bytes, or when they are zero. -/
theorem ofFillPattern_bitByte {bitsCount : Nat} (hbound : bitsCount + 7 < uint32Size)
    (bitIsOne : Bool) (p : SizeProperty) :
    ofFillPattern bitsCount (bitByte bitIsOne) p =
      .ok (ofBits (List.replicate bitsCount bitIsOne) p) := by
  have hbytes := bytesCountFromBitsCount_eq hbound
  have hexact : ExactBytes ⟨List.replicate (bytesCountFromBitsCount bitsCount) (bitByte bitIsOne),
      bitsCount, p⟩ := by
    rw [ExactBytes, List.length_replicate, hbytes]
  have hbits : (unpack (List.replicate (bytesCountFromBitsCount bitsCount) (bitByte bitIsOne))).take
      bitsCount = List.replicate bitsCount bitIsOne := by
    have hle := le_bytesFor bitsCount
    rw [unpack_replicate_bitByte, List.take_replicate, hbytes, Nat.min_eq_left hle]
  rw [ofFillPattern, build_maskLastByte hexact, bits, hbits]

/-- A vector whose bytes would be counted past 32 bits gets none, and its last byte is not there to mask. -/
theorem ofFillPattern_within {bitsCount : Nat} (hcount : bitsCount < uint32Size) {fillPattern : Byte}
    {p : SizeProperty} {v : BinaryVector} (hv : ofFillPattern bitsCount fillPattern p = .ok v) :
    bitsCount + 7 < uint32Size := by
  by_contra hwrap
  have hsize : uint32Size = 4294967296 := rfl
  have hnone : bytesCountFromBitsCount bitsCount = 0 := by
    have hsum : (bitsCount + 7) % uint32Size = bitsCount + 7 - uint32Size := by
      rw [Nat.mod_eq_sub_mod (by omega), Nat.mod_eq_of_lt (by omega)]
    rw [bytesCountFromBitsCount, hsum]
    omega
  have hunaligned : bitsCount % 8 ≠ 0 := by omega
  rw [ofFillPattern, hnone, List.replicate_zero, build, maskLastByte, EStateM.run_bind,
    EStateM.run_get] at hv
  simp only [if_pos hunaligned] at hv
  cases hv

theorem insertBytes_ofBits {l : List Bool} {p : SizeProperty} {bitIsOne : Bool}
    {bytesCount : Nat} (haligned : l.length % 8 = 0 ∨ bitIsOne = false ∨ bytesCount = 0)
    (hbound : l.length + 8 * bytesCount < uint32Size) :
    (ofBits l p).insertBytes (bitByte bitIsOne) bytesCount =
      ofBits (l ++ List.replicate (8 * bytesCount) bitIsOne) p := by
  have hdata : pack l ++ List.replicate bytesCount (bitByte bitIsOne) =
      pack (l ++ List.replicate (8 * bytesCount) bitIsOne) := by
    rcases haligned with haligned | rfl | rfl
    · rw [pack_append haligned, ← unpack_replicate_bitByte, pack_unpack]
    · refine eq_pack (8 * bytesFor l.length - l.length) ?_ ?_
      · rw [unpack_append, unpack_pack, unpack_replicate_bitByte, List.append_assoc,
          List.append_assoc, ← List.replicate_add, ← List.replicate_add, Nat.add_comm]
      · have := bytesFor_lt l.length
        omega
    · simp
  simp only [insertBytes, ofBits, hdata, List.length_append, List.length_replicate,
    Nat.mod_eq_of_lt hbound]

theorem appendBits_ofBits {l : List Bool} {p : SizeProperty} (bitIsOne : Bool) (count : Nat)
    (haligned : l.length % 8 = 0 ∨ bitIsOne = false ∨ count < 8) (hfree : p ≠ .fixed)
    (hbound : l.length + count < uint32Size) :
    (appendBits bitIsOne count).run (ofBits l p) =
      .ok () (ofBits (l ++ List.replicate count bitIsOne) p) := by
  have hinsert := insertBytes_ofBits (p := p)
    (haligned.imp_right (Or.imp_right fun hfew => Nat.div_eq_of_lt hfew)) (by omega)
  have hsum : 8 * (count / 8) + count % 8 = count := Nat.div_add_mod count 8
  rw [appendBits_run (by rw [ofBits_usedBits]; omega), hinsert]
  by_cases hrem : count % 8 = 0
  · have : 8 * (count / 8) = count := by omega
    rw [if_pos hrem, this]
  · have hbits : alignedBits (bitByte bitIsOne) (count % 8) .right =
        List.replicate (count % 8) bitIsOne := by
      rw [alignedBits, byteBits_bitByte, List.drop_replicate]
      congr 1
      omega
    rw [if_neg hrem, append8_ofBits (by omega) (by omega) hfree
      (by rw [List.length_append, List.length_replicate]; omega), hbits, List.append_assoc,
      ← List.replicate_add, hsum]

end BinaryVector

end Mast
