import Mast.BinaryVector.AppendLaws
import Mast.BinaryVector.SliceAccess
import Mast.BinaryVector.Print

/-!
# The other mutators of a bit vector

Assignment, bits and bitwise operations, `prependBits`, `truncateLeadingZeroes` and the `Set` functions, each with what it does to a vector in the intended representation.
-/

namespace Mast

open BitPacking

namespace BinaryVector

def checkFixedSizeAssignment (newSize : Nat) : Mutation Unit := do
  let v ← get
  check (v.fixedSize → newSize = v.usedBits)
    (.logicError ("BinaryVector size has been fixed to " ++ toString v.usedBits ++
      " bit(s); Cannot assign " ++ toString newSize ++ " bit(s)"))

/-- `operator=`; the move assignment gives its target the same value. -/
def assign (rhs : BinaryVector) : Mutation Unit := do
  checkFixedSizeAssignment rhs.usedBits
  modify fun v =>
    ⟨rhs.data, rhs.usedBits,
      if rhs.sizeProperty = .fixedOnCopy then .fixedOnCopy else v.sizeProperty⟩

def clear : Mutation Unit := modify fun v => { v with data := [], usedBits := 0 }

def fixSize (fix : Bool) : Mutation Unit :=
  modify fun v => { v with sizeProperty := if fix then .fixed else .notFixed }

/-- What `SetBit`, `ClearBit` and `ToggleBit` share: a change of the byte of one bit. -/
def updateBit (bitOffset : Nat) (update : Byte → Byte → Byte) : Mutation Unit := do
  let v ← get
  check (bitOffset < v.usedBits)
    (.invalidArgument ("Out of range bit id: " ++ toString bitOffset))
  check (bitOffset / 8 < v.data.length) .undefinedBehaviour
  set { v with data := v.data.modify (bitOffset / 8) (update · (bitMask8 (bitOffset % 8))) }

def setBit (bitOffset : Nat) : Mutation Unit := updateBit bitOffset fun byte mask => byte ||| mask

def clearBit (bitOffset : Nat) : Mutation Unit :=
  updateBit bitOffset fun byte mask => byte &&& ~~~mask

def toggleBit (bitOffset : Nat) : Mutation Unit :=
  updateBit bitOffset fun byte mask => byte ^^^ mask

def toggleBits : Mutation Unit := do
  modify fun v => { v with data := v.data.map fun byte => ~~~byte }
  maskLastByte

/-- What `operator&=`, `operator|=` and `operator^=` share. -/
def combine (combineBytes : Byte → Byte → Byte) (rhs : BinaryVector) : Mutation Unit := do
  let v ← get
  check (rhs.usedBits = v.usedBits) (.logicError "BinaryVectors must have same size")
  check (v.data.length ≤ rhs.data.length) .undefinedBehaviour
  set { v with data := v.data.zipWith combineBytes rhs.data }
  maskLastByte

def andAssign : BinaryVector → Mutation Unit := combine fun left right => left &&& right

def orAssign : BinaryVector → Mutation Unit := combine fun left right => left ||| right

def xorAssign : BinaryVector → Mutation Unit := combine fun left right => left ^^^ right

def prependBits (bitsCount : Nat) (fillPattern : Byte) : Mutation Unit := do
  let v ← get
  let tmp ← orThrow (ofFillPattern bitsCount fillPattern .notFixed)
  let tmp ← orThrow (build tmp (append v))
  assign tmp

/-- The number of leading zeros of a nibble, as in the table of `LeadingZeroesCount`. -/
def nibbleLeadingZeroes (nibble : Byte) : Nat :=
  [4, 3, 2, 2, 1, 1, 1, 1, 0, 0, 0, 0, 0, 0, 0, 0].getD nibble.toNat 0

def leadingZeroesCount (v : BinaryVector) : Nat := loop v.data 0 v.usedBits
where
  loop : List Byte → Nat → Nat → Nat
    | [], count, _ => count
    | bits :: rest, count, remainingBits =>
      if bits = 0 then
        if remainingBits ≥ 8 then loop rest (count + 8) (remainingBits - 8)
        else count + remainingBits
      else
        let lastCount := nibbleLeadingZeroes (bits >>> 4)
        let lastCount :=
          if lastCount = 4 then lastCount + nibbleLeadingZeroes (bits &&& 0x0F) else lastCount
        count + min lastCount remainingBits

def truncateLeadingZeroes (numberOfBitsToRemove : Nat) : Mutation Unit := do
  let v ← get
  let shown := String.ofList (v.dataAsMixString 8 .default)
  check (numberOfBitsToRemove ≤ v.usedBits)
    (.invalidArgument ("Cannot remove " ++ toString numberOfBitsToRemove ++
      " bits when vector has only " ++ toString v.usedBits ++ " bits.\nCurrent value is: " ++ shown))
  check (numberOfBitsToRemove ≤ v.leadingZeroesCount)
    (.invalidArgument ("Cannot remove " ++ toString numberOfBitsToRemove ++
      " leading zeroes from vector that has only " ++ toString v.leadingZeroesCount ++
      " leading zeroes.\nCurrent value is: " ++ shown))
  let tmp ← orThrow (v.slice numberOfBitsToRemove (v.usedBits - numberOfBitsToRemove))
  assign tmp

/-- What `SetSigned` and `SetUnsigned` share: a fixed size vector that is not empty keeps its length and is extended with `extension`, any other one takes the length of the integer. -/
def setInteger (width : UIntWidth) (value : BitVec width.bits) (extension : Bool) :
    Mutation Unit := do
  let v ← get
  let initialBitsCount := v.usedBits
  clear
  if ¬v.fixedSize ∨ initialBitsCount = 0 then
    appendUInt width value width.bits .right
  else
    modify fun v => { v with sizeProperty := .notFixed }
    if initialBitsCount > width.bits then
      appendBits extension (initialBitsCount - width.bits)
    appendUInt width value (min initialBitsCount width.bits) .right
    modify fun v => { v with sizeProperty := .fixed }

/-- `Set` from an unsigned integer. -/
def setUnsigned (width : UIntWidth) (value : BitVec width.bits) : Mutation Unit :=
  setInteger width value false

/-- `Set` from a signed integer, whose sign is its first bit. -/
def setSigned (width : UIntWidth) (value : BitVec width.bits) : Mutation Unit :=
  setInteger width value value.msb

/-! ### Assignment -/

/-- The size property of an assigned vector. -/
def assignedSizeProperty (old new : SizeProperty) : SizeProperty :=
  if new = .fixedOnCopy then .fixedOnCopy else old

theorem assign_rejects {v rhs : BinaryVector} (hfixed : v.sizeProperty = .fixed)
    (hsize : rhs.usedBits ≠ v.usedBits) : Rejects (assign rhs) v := by
  refine Rejects.bind (Rejects.of_run (EStateM.run_get v) ?_) _
  exact check_rejects (by simp [fixedSize, hfixed, hsize]) (by simp) v

theorem assign_run {v rhs : BinaryVector}
    (hsize : v.sizeProperty = .fixed → rhs.usedBits = v.usedBits) :
    (assign rhs).run v = .ok () ⟨rhs.data, rhs.usedBits,
      assignedSizeProperty v.sizeProperty rhs.sizeProperty⟩ := by
  have hcheck : v.fixedSize = true → rhs.usedBits = v.usedBits :=
    fun hfixed => hsize (by simpa [fixedSize] using hfixed)
  simp only [assign, checkFixedSizeAssignment, EStateM.run_bind, EStateM.run_get, check_run hcheck,
    EStateM.run_modify, assignedSizeProperty]

/-! ### Bits -/

theorem updateBit_rejects {v : BinaryVector} {bitOffset : Nat} (hout : v.usedBits ≤ bitOffset)
    (update : Byte → Byte → Byte) : Rejects (updateBit bitOffset update) v := by
  refine Rejects.of_run (EStateM.run_get v) ?_
  exact (check_rejects (by omega) (by simp) v).bind _

theorem updateBit_run {v : BinaryVector} (hexact : v.ExactBytes) {bitOffset : Nat}
    (hin : bitOffset < v.usedBits) (update : Byte → Byte → Byte) :
    (updateBit bitOffset update).run v =
      .ok () { v with
        data := v.data.modify (bitOffset / 8) (update · (bitMask8 (bitOffset % 8))) } := by
  have hle := hexact.le_data
  have hbyte : bitOffset / 8 < v.data.length := by omega
  simp only [updateBit, EStateM.run_bind, EStateM.run_get, check_run hin, check_run hbyte,
    EStateM.run_set]

theorem updateBit_ofBits {l : List Bool} {p : SizeProperty} {bitOffset : Nat}
    (hin : bitOffset < l.length) {update : Byte → Byte → Byte} {value : Byte → Bool}
    (hupdate : ∀ byte : Byte, byteBits (update byte (bitMask8 (bitOffset % 8))) =
      splice (byteBits byte) (bitOffset % 8) [value byte]) :
    ∃ byte, (updateBit bitOffset update).run (ofBits l p) =
      .ok () (ofBits (splice l bitOffset [value byte]) p) := by
  have hbytes := le_bytesFor l.length
  have hfew := bytesFor_lt l.length
  have hindex : bitOffset / 8 < (pack l).length := by
    rw [pack_length]
    omega
  refine ⟨(pack l)[bitOffset / 8], ?_⟩
  have hoffset : 8 * (bitOffset / 8) + bitOffset % 8 = bitOffset := Nat.div_add_mod _ _
  have hwrite := unpack_modify (f := (update · (bitMask8 (bitOffset % 8)))) hindex
    (hupdate (pack l)[bitOffset / 8]) (by rw [List.length_singleton]; omega)
  have hend : bitOffset + [value (pack l)[bitOffset / 8]].length ≤ l.length := by
    rw [List.length_singleton]
    omega
  have hdata : (pack l).modify (bitOffset / 8) (update · (bitMask8 (bitOffset % 8))) =
      pack (splice l bitOffset [value (pack l)[bitOffset / 8]]) := by
    refine eq_pack (8 * bytesFor l.length - l.length) ?_ (by omega)
    rw [hwrite, hoffset, unpack_pack]
    simp only [splice]
    rw [List.take_append_of_le_length (by omega), List.drop_append_of_le_length hend]
    simp only [List.append_assoc]
  rw [updateBit_run (ofBits_wellFormed l p).exactBytes hin, ofBits_data, hdata,
    ofBits.eq_1 (splice _ _ _), splice_length hend]
  rfl

theorem getMsbD_bitMask8 {offset i : Nat} (hoffset : offset < 8) :
    (bitMask8 offset).getMsbD i = decide (i = offset) := by
  by_cases hi : i < 8
  · interval_cases offset <;> interval_cases i <;> rfl
  · rw [BitVec.getMsbD_of_ge _ _ (by omega)]
    simp
    omega

private theorem byteBits_updateBit {old byte : Byte} {offset : Nat} {value : Bool}
    (hoffset : offset < 8)
    (hbits : ∀ i < 8, byte.getMsbD i = if i = offset then value else old.getMsbD i) :
    byteBits byte = splice (byteBits old) offset [value] := by
  apply byteBits_eq_splice (by rw [List.length_singleton]; omega)
  intro i hi
  rw [hbits i hi]
  by_cases heq : i = offset
  · have hin : offset ≤ i ∧ i < offset + [value].length := by
      rw [List.length_singleton]
      omega
    simp [heq]
  · have hout : ¬(offset ≤ i ∧ i < offset + [value].length) := by
      rw [List.length_singleton]
      omega
    rw [if_neg heq, dif_neg hout]

theorem byteBits_setBit {offset : Nat} (hoffset : offset < 8) (byte : Byte) :
    byteBits (byte ||| bitMask8 offset) = splice (byteBits byte) offset [true] := by
  apply byteBits_updateBit hoffset
  intro i hi
  by_cases heq : i = offset <;> simp [getMsbD_bitMask8 hoffset, heq]

theorem byteBits_clearBit {offset : Nat} (hoffset : offset < 8) (byte : Byte) :
    byteBits (byte &&& ~~~bitMask8 offset) = splice (byteBits byte) offset [false] := by
  apply byteBits_updateBit hoffset
  intro i hi
  by_cases heq : i = offset <;> simp [getMsbD_bitMask8 hoffset, heq, hi]

theorem byteBits_toggleBit {offset : Nat} (hoffset : offset < 8) (byte : Byte) :
    byteBits (byte ^^^ bitMask8 offset) =
      splice (byteBits byte) offset [!byte.getMsbD offset] := by
  apply byteBits_updateBit hoffset
  intro i hi
  by_cases heq : i = offset <;> simp [getMsbD_bitMask8 hoffset, heq]

theorem setBit_ofBits {l : List Bool} {p : SizeProperty} {bitOffset : Nat}
    (hin : bitOffset < l.length) :
    (setBit bitOffset).run (ofBits l p) = .ok () (ofBits (l.set bitOffset true) p) := by
  obtain ⟨byte, hrun⟩ := @updateBit_ofBits l p bitOffset hin (fun byte mask => byte ||| mask)
    (fun _ => true) (byteBits_setBit (Nat.mod_lt bitOffset (by decide)))
  rw [splice_singleton hin] at hrun
  exact hrun

theorem clearBit_ofBits {l : List Bool} {p : SizeProperty} {bitOffset : Nat}
    (hin : bitOffset < l.length) :
    (clearBit bitOffset).run (ofBits l p) = .ok () (ofBits (l.set bitOffset false) p) := by
  obtain ⟨byte, hrun⟩ := @updateBit_ofBits l p bitOffset hin (fun byte mask => byte &&& ~~~mask)
    (fun _ => false) (byteBits_clearBit (Nat.mod_lt bitOffset (by decide)))
  rw [splice_singleton hin] at hrun
  exact hrun

/-! ### Bitwise operations -/

theorem toggleBits_run {v : BinaryVector} (hexact : v.ExactBytes) :
    toggleBits.run v = .ok () (ofBits (v.bits.map not) v.sizeProperty) := by
  have hexact' : ExactBytes { v with data := v.data.map fun byte => ~~~byte } := by
    rw [ExactBytes, List.length_map, hexact]
  have hbits : bits { v with data := v.data.map fun byte => ~~~byte } = v.bits.map not := by
    rw [bits, unpack_map byteBits_not, ← List.map_take, bits]
  rw [toggleBits, EStateM.run_bind, EStateM.run_modify]
  simp only [maskLastByte_run hexact', hbits]

theorem combine_rejects {v rhs : BinaryVector} (hsize : rhs.usedBits ≠ v.usedBits)
    (combineBytes : Byte → Byte → Byte) : Rejects (combine combineBytes rhs) v :=
  Rejects.of_run (EStateM.run_get v) ((check_rejects hsize (by simp) v).bind _)

theorem combine_run {v rhs : BinaryVector} (hexact : v.ExactBytes) (hrhs : rhs.ExactBytes)
    (hsize : rhs.usedBits = v.usedBits) {combineBytes : Byte → Byte → Byte}
    {combineBits : Bool → Bool → Bool}
    (hbytes : ∀ left right : Byte, byteBits (combineBytes left right) =
      List.zipWith combineBits (byteBits left) (byteBits right)) :
    (combine combineBytes rhs).run v =
      .ok () (ofBits (List.zipWith combineBits v.bits rhs.bits) v.sizeProperty) := by
  have hlength : v.data.length = rhs.data.length := by
    rw [hexact, hrhs, hsize]
  have hexact' : ExactBytes { v with data := List.zipWith combineBytes v.data rhs.data } := by
    rw [ExactBytes, List.length_zipWith, ← hlength, Nat.min_self, hexact]
  have hbits : bits { v with data := List.zipWith combineBytes v.data rhs.data } =
      List.zipWith combineBits v.bits rhs.bits := by
    rw [bits, unpack_zipWith hbytes, List.take_zipWith, bits, bits, hsize]
  simp only [combine, EStateM.run_bind, EStateM.run_get, check_run hsize,
    check_run (Nat.le_of_eq hlength), EStateM.run_set, maskLastByte_run hexact', hbits]

/-! ### Bits in front -/

/-- The vector `PrependBits` builds before it assigns it. -/
theorem prependBits_eq {v : BinaryVector} (hv : v.Stored) {bitsCount : Nat}
    (hbound : bitsCount + 7 < uint32Size) (fillPattern : Byte) :
    ∃ tmp : BinaryVector, tmp.usedBits = (bitsCount + v.usedBits) % uint32Size ∧
      tmp.sizeProperty = .notFixed ∧
      (prependBits bitsCount fillPattern).run v = (assign tmp).run v ∧
      (bitsCount + v.usedBits < uint32Size → ∃ l, tmp = ofBits (l ++ v.bits) .notFixed) := by
  obtain ⟨fill, hfill, hfront⟩ := ofFillPattern_eq hbound fillPattern .notFixed
  obtain ⟨tmp, hrun, hused, hprop, -⟩ := append_lengthens (v := ofBits fill .notFixed)
    hv.exactBytes (by simp) (ofBits_backValid _ _) (by rw [ofBits_usedBits]; omega)
  refine ⟨tmp, by rw [hused, ofBits_usedBits, hfill], hprop, ?_, ?_⟩
  · have hbuild : build (ofBits fill .notFixed) (append v) = .ok tmp := by rw [build, hrun]
    simp only [prependBits, EStateM.run_bind, EStateM.run_get, hfront, orThrow_ok, hbuild]
  · intro hsum
    have happend := append_ofBits (l := fill) (p := .notFixed) hv.exactBytes (by simp)
      (by rwa [hfill])
    rw [hrun] at happend
    injection happend with _ heq
    exact ⟨fill, heq⟩

theorem prependBits_undefined {v : BinaryVector} {bitsCount : Nat} (hlt : bitsCount < uint32Size)
    (hbound : uint32Size ≤ bitsCount + 7) (fillPattern : Byte) :
    (prependBits bitsCount fillPattern).run v = .error .undefinedBehaviour v := by
  have hnone : bytesCountFromBitsCount bitsCount = 0 := by
    rw [bytesCountFromBitsCount]
    unfold uint32Size at *
    omega
  have hrem : bitsCount % 8 ≠ 0 := by
    unfold uint32Size at *
    omega
  have hfill : ofFillPattern bitsCount fillPattern .notFixed = .error .undefinedBehaviour := by
    simp [ofFillPattern, build, maskLastByte, hnone, hrem, check]
  simp only [prependBits, EStateM.run_bind, EStateM.run_get, hfill]
  rfl

/-! ### Leading zeros -/

theorem leadingZeroesCount_loop_le (data : List Byte) (count remainingBits : Nat) :
    leadingZeroesCount.loop data count remainingBits ≤ count + remainingBits := by
  induction data generalizing count remainingBits with
  | nil => exact Nat.le_add_right _ _
  | cons bits rest ih =>
    rw [leadingZeroesCount.loop]
    split_ifs with hzero hmany
    · exact (ih _ _).trans (by omega)
    · exact Nat.le_refl _
    · exact Nat.add_le_add_left (Nat.min_le_right _ _) _

theorem leadingZeroesCount_le (v : BinaryVector) : v.leadingZeroesCount ≤ v.usedBits :=
  (leadingZeroesCount_loop_le v.data 0 v.usedBits).trans (by omega)

theorem truncateLeadingZeroes_rejects {v : BinaryVector} {count : Nat}
    (hcount : v.leadingZeroesCount < count) : Rejects (truncateLeadingZeroes count) v := by
  refine Rejects.of_run (EStateM.run_get v) ?_
  by_cases hused : count ≤ v.usedBits
  · refine Rejects.of_run (check_run hused _ v) ?_
    exact (check_rejects (by omega) (by simp) v).bind _
  · exact (check_rejects hused (by simp) v).bind _

theorem truncateLeadingZeroes_run {v : BinaryVector} (hv : v.Stored) {count : Nat}
    (hcount : count ≤ v.leadingZeroesCount) :
    (truncateLeadingZeroes count).run v =
      (assign (ofBits (v.bits.drop count) .notFixed)).run v := by
  have hused := hcount.trans v.leadingZeroesCount_le
  have hslice := slice_eq hv.exactBytes hv.usedBits_lt
    (show count + (v.usedBits - count) ≤ v.usedBits by omega)
  have hall : (v.bits.drop count).take (v.usedBits - count) = v.bits.drop count := by
    apply List.take_of_length_le
    rw [List.length_drop, hv.exactBytes.bits_length]
  rw [hall] at hslice
  simp only [truncateLeadingZeroes, EStateM.run_bind, EStateM.run_get, check_run hused,
    check_run hcount, hslice, orThrow_ok]

/-! ### Integers -/

theorem clear_run (v : BinaryVector) : clear.run v = .ok () (ofBits [] v.sizeProperty) := rfl

/-- What a vector of `count` bits holds after `Set`: the least significant bits of the integer, behind those that extend it. -/
def storedBits {width : Nat} (count : Nat) (value : BitVec width) (extension : Bool) : List Bool :=
  List.replicate (count - width) extension ++ integerBits value (min count width) .right

@[simp] theorem storedBits_length {width : Nat} (count : Nat) (value : BitVec width)
    (extension : Bool) : (storedBits count value extension).length = count := by
  rw [storedBits, List.length_append, List.length_replicate, integerBits_length]
  omega

theorem setInteger_unfixed {v : BinaryVector} (hfree : v.sizeProperty ≠ .fixed)
    (width : UIntWidth) (value : BitVec width.bits) (extension : Bool) :
    (setInteger width value extension).run v =
      .ok () (ofBits (storedBits width.bits value extension) v.sizeProperty) := by
  have hbits := width.bits_le
  have hrun := appendUInt_bits (l := []) (p := v.sizeProperty) width.bits_pos (Nat.le_refl _) hfree
    (by rw [List.length_nil]; unfold uint32Size; omega) value .right
  have hcase : ¬v.fixedSize = true ∨ v.usedBits = 0 := by
    simp [fixedSize_eq_false hfree]
  have hstored : storedBits width.bits value extension =
      [] ++ integerBits value width.bits .right := by
    rw [storedBits, Nat.sub_self, List.replicate_zero, Nat.min_self]
  simp only [setInteger, EStateM.run_bind, EStateM.run_get, clear_run, hcase, if_true, hrun, hstored]

theorem setInteger_stored {v : BinaryVector} (hfixed : v.sizeProperty = .fixed)
    (hpos : 0 < v.usedBits) (hused : v.usedBits < uint32Size) (width : UIntWidth)
    (value : BitVec width.bits) (extension : Bool) :
    (setInteger width value extension).run v =
      .ok () (ofBits (storedBits v.usedBits value extension) .fixed) := by
  have hcase : ¬(¬v.fixedSize = true ∨ v.usedBits = 0) := by
    have hchecked : v.fixedSize = true := by simp [fixedSize, hfixed]
    simp only [hchecked, not_true, false_or]
    omega
  have hunfix : (modify fun v : BinaryVector => { v with sizeProperty := .notFixed } :
      Mutation Unit).run (ofBits [] v.sizeProperty) = .ok () (ofBits [] .notFixed) := rfl
  have hfix (l : List Bool) : (modify fun v : BinaryVector => { v with sizeProperty := .fixed } :
      Mutation Unit).run (ofBits l .notFixed) = .ok () (ofBits l .fixed) := rfl
  have hwidth := width.bits_pos
  have hrun := appendUInt_bits (p := .notFixed)
    (l := List.replicate (v.usedBits - width.bits) extension)
    (show 0 < min v.usedBits width.bits by omega) (Nat.min_le_right _ _) (by decide)
    (by rw [List.length_replicate]; omega) value .right
  by_cases hlarge : v.usedBits > width.bits
  · have hfront := appendBits_ofBits (l := []) extension (v.usedBits - width.bits) (p := .notFixed)
      (.inl rfl) (by decide) (by rw [List.length_nil]; omega)
    simp only [setInteger, EStateM.run_bind, EStateM.run_get, clear_run, hcase, if_false, hunfix,
      if_pos hlarge, hfront, List.nil_append, hrun, hfix, storedBits]
  · have hnone : v.usedBits - width.bits = 0 := by omega
    rw [hnone, List.replicate_zero] at hrun
    simp only [setInteger, EStateM.run_bind, EStateM.run_get, clear_run, hcase, if_false, hunfix,
      if_neg hlarge, hrun, hfix, storedBits, hnone, List.replicate_zero]

theorem setInteger_rejects {v : BinaryVector} (hexact : v.ExactBytes)
    (hfixed : v.sizeProperty = .fixed) (hnone : v.usedBits = 0) (width : UIntWidth)
    (value : BitVec width.bits) (extension : Bool) :
    Rejects (setInteger width value extension) v := by
  have hself : ofBits [] v.sizeProperty = v := by
    have hdata : v.data = [] := by
      rw [← List.length_eq_zero_iff, hexact, hnone]
      rfl
    obtain ⟨data, usedBits, sizeProperty⟩ := v
    simp only at hdata hnone
    rw [hdata, hnone]
    rfl
  have hclear : clear.run v = .ok () v := by rw [clear_run, hself]
  refine Rejects.of_run (EStateM.run_get v) (Rejects.of_run hclear ?_)
  simp only [hnone, or_true, if_true]
  exact appendUInt_rejects (.inl hfixed) value .right

end BinaryVector

end Mast
