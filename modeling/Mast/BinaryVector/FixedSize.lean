import Mast.BinaryVector.Mutate

/-!
# Vectors of fixed size

`Mutator` lists the calls that change a vector, with their arguments in the range of their C++ types. For a vector whose size property is `fixed` or `fixedOnCopy`, `keepsSize_iff` says for each of them exactly when it leaves the number of bits alone or throws without an effect; a read behind a vector is undefined. The checks of the mutators see `fixed` only, so most of them change the size of a `fixedOnCopy` vector; and `appendBits` inserts whole bytes before any check.
-/

namespace Mast

namespace BinaryVector

/-- A call of a mutator other than `clear` and `fixSize`. -/
inductive Mutator
  | append (rhs : BinaryVector)
  | appendUInt (width : UIntWidth) (value : BitVec width.bits) (numberOfBits : Nat)
      (alignment : BitsAlignment)
  | appendChunks (numberOfBits : Nat) (alignment : BitsAlignment) (chunks : List (BitVec 8))
  | appendBits (bitIsOne : Bool) (count : Fin uint32Size)
  | prependBits (bitsCount : Fin uint32Size) (fillPattern : BitVec 8)
  | truncateLeadingZeroes (numberOfBitsToRemove : Nat)
  | setUnsigned (width : UIntWidth) (value : BitVec width.bits)
  | setSigned (width : UIntWidth) (value : BitVec width.bits)
  | assign (rhs : BinaryVector)
  | setSlice (startOffset : Nat) (value : BinaryVector)
  | setSliceT (range : IndexedRange) (width : UIntWidth) (value : BitVec width.bits)
  | setBit (bitOffset : Nat)
  | clearBit (bitOffset : Nat)
  | toggleBit (bitOffset : Nat)
  | toggleBits
  | andAssign (rhs : BinaryVector)
  | orAssign (rhs : BinaryVector)
  | xorAssign (rhs : BinaryVector)

namespace Mutator

/-- The call, where `behind` can be read after the vector or the integer it assigns. -/
def call (behind : List (BitVec 8)) : Mutator → Mutation Unit
  | append rhs => BinaryVector.append rhs
  | appendUInt width value numberOfBits alignment =>
    BinaryVector.appendUInt width value numberOfBits alignment
  | appendChunks numberOfBits alignment chunks =>
    BinaryVector.appendChunks numberOfBits alignment chunks
  | appendBits bitIsOne count => BinaryVector.appendBits bitIsOne count
  | prependBits bitsCount fillPattern => BinaryVector.prependBits bitsCount fillPattern
  | truncateLeadingZeroes count => BinaryVector.truncateLeadingZeroes count
  | setUnsigned width value => BinaryVector.setUnsigned width value
  | setSigned width value => BinaryVector.setSigned width value
  | assign rhs => BinaryVector.assign rhs
  | setSlice startOffset value => BinaryVector.setSlice behind startOffset value
  | setSliceT range width value => BinaryVector.setSliceT behind range width value
  | setBit bitOffset => BinaryVector.setBit bitOffset
  | clearBit bitOffset => BinaryVector.clearBit bitOffset
  | toggleBit bitOffset => BinaryVector.toggleBit bitOffset
  | toggleBits => BinaryVector.toggleBits
  | andAssign rhs => BinaryVector.andAssign rhs
  | orAssign rhs => BinaryVector.orAssign rhs
  | xorAssign rhs => BinaryVector.xorAssign rhs

def operand : Mutator → Option BinaryVector
  | append rhs | assign rhs | setSlice _ rhs | andAssign rhs | orAssign rhs | xorAssign rhs =>
    some rhs
  | _ => none

/-- The condition on a call and its target under which a vector of fixed size keeps its size. -/
def SizeKept (mutator : Mutator) (v : BinaryVector) : Prop :=
  match mutator, v.sizeProperty with
  | appendBits _ count, .fixed => count.val < 8
  | prependBits bitsCount _, .fixed => bitsCount.val + 7 < uint32Size
  | append rhs, .fixedOnCopy => rhs.usedBits = 0
  | appendUInt width _ numberOfBits _, .fixedOnCopy => numberOfBits = 0 ∨ width.bits < numberOfBits
  | appendChunks numberOfBits _ chunks, .fixedOnCopy =>
    numberOfBits = 0 ∨ chunks.length * 8 % 256 < numberOfBits
  | appendBits _ count, .fixedOnCopy => count.val = 0
  | prependBits bitsCount _, .fixedOnCopy => bitsCount.val = 0
  | truncateLeadingZeroes count, .fixedOnCopy => count = 0 ∨ v.leadingZeroesCount < count
  | setUnsigned width _, .fixedOnCopy => v.usedBits = width.bits
  | setSigned width _, .fixedOnCopy => v.usedBits = width.bits
  | assign rhs, .fixedOnCopy => rhs.usedBits = v.usedBits
  | setSlice startOffset value, _ =>
    value.usedBits = 0 ∨ v.usedBits ≤ startOffset ∨
      v.usedBits < (startOffset + value.usedBits) % uint32Size ∨
        startOffset + value.usedBits ≤ 8 * v.data.length ∧ StaysInByte startOffset value.usedBits ∧
          (startOffset % 8 = 0 ∨ startOffset % 8 + value.usedBits < uint32Size)
  | setSliceT range width value, _ =>
    RangeAccepted v range width value →
      StaysInByte range.left (range.right - range.left + 1)
  | _, _ => True

end Mutator

/-- What a vector of fixed size promises: a call throws and has no effect, or returns with the same number of bits and a fixed size. -/
def KeepsSize (mutation : Mutation Unit) (v : BinaryVector) : Prop :=
  match mutation.run v with
  | .ok _ v' => v'.usedBits = v.usedBits ∧ v'.hasFixedSize
  | .error .undefinedBehaviour _ => False
  | .error _ v' => v' = v

/-! ### What a call can do to the size -/

theorem Rejects.keepsSize {mutation : Mutation Unit} {v : BinaryVector}
    (hrejects : Rejects mutation v) : KeepsSize mutation v := by
  obtain ⟨fault, hfault, hrun⟩ := hrejects
  rw [KeepsSize, hrun]
  cases fault <;> simp at hfault ⊢

theorem keepsSize_ok {mutation : Mutation Unit} {v v' : BinaryVector}
    (hrun : mutation.run v = .ok () v') :
    KeepsSize mutation v ↔ v'.usedBits = v.usedBits ∧ v'.hasFixedSize := by
  rw [KeepsSize, hrun]

theorem hasFixedSize_eq {v : BinaryVector} (h : v.sizeProperty ≠ .notFixed) :
    v.hasFixedSize = true := by
  simpa [hasFixedSize] using h

/-- A mutation that lengthens a vector keeps its size only when it appends nothing. -/
theorem Lengthens.keepsSize_iff_zero {mutation : Mutation Unit} {v : BinaryVector} {count : Nat}
    (hlengthens : Lengthens mutation v count) (hfixed : v.sizeProperty ≠ .notFixed)
    (hused : v.usedBits < uint32Size) (hcount : count < uint32Size) :
    KeepsSize mutation v ↔ count = 0 := by
  obtain ⟨v', hrun, hused', hprop, -⟩ := hlengthens
  have hkept : v'.hasFixedSize = true := hasFixedSize_eq (by rwa [hprop])
  rw [keepsSize_ok hrun, hused']
  simp only [hkept, and_true]
  unfold uint32Size at *
  omega

section

variable {v : BinaryVector} (hv : v.Stored) (hfixed : v.sizeProperty ≠ .notFixed)

include hv hfixed

theorem append_keepsSize {rhs : BinaryVector} (hrhs : rhs.Stored) :
    KeepsSize (append rhs) v ↔ (v.sizeProperty = .fixed ∨ rhs.usedBits = 0) := by
  by_cases hcheck : v.sizeProperty = .fixed
  · exact iff_of_true (append_rejects hcheck rhs).keepsSize (.inl hcheck)
  · rw [(append_lengthens hrhs.exactBytes hcheck hv.exactBytes.backValid
      hv.usedBits_lt).keepsSize_iff_zero hfixed hv.usedBits_lt hrhs.usedBits_lt]
    simp [hcheck]

theorem appendUInt_keepsSize (width : UIntWidth) (value : BitVec width.bits) (numberOfBits : Nat)
    (alignment : BitsAlignment) :
    KeepsSize (appendUInt width value numberOfBits alignment) v ↔
      (v.sizeProperty = .fixed ∨ numberOfBits = 0 ∨ width.bits < numberOfBits) := by
  by_cases hrejects : v.sizeProperty = .fixed ∨ numberOfBits = 0 ∨ width.bits < numberOfBits
  · exact iff_of_true (appendUInt_rejects hrejects value alignment).keepsSize hrejects
  · push Not at hrejects
    obtain ⟨hcheck, hpos, hle⟩ := hrejects
    have hbits := width.bits_le
    rw [(appendUInt_lengthens (by omega) hle hcheck hv.exactBytes.backValid value
      alignment).keepsSize_iff_zero hfixed hv.usedBits_lt (by unfold uint32Size; omega)]
    simp only [hcheck, false_or]
    omega

theorem appendChunks_keepsSize (numberOfBits : Nat) (alignment : BitsAlignment)
    (chunks : List (BitVec 8)) :
    KeepsSize (appendChunks numberOfBits alignment chunks) v ↔
      (v.sizeProperty = .fixed ∨ numberOfBits = 0 ∨ chunks.length * 8 % 256 < numberOfBits) := by
  by_cases hrejects : v.sizeProperty = .fixed ∨ numberOfBits = 0 ∨
      chunks.length * 8 % 256 < numberOfBits
  · exact iff_of_true (appendChunks_rejects hrejects alignment).keepsSize hrejects
  · push Not at hrejects
    obtain ⟨hcheck, hpos, hle⟩ := hrejects
    rw [(appendChunks_lengthens (by omega) hle hcheck
      hv.exactBytes.backValid).keepsSize_iff_zero hfixed hv.usedBits_lt (by unfold uint32Size; omega)]
    simp only [hcheck, false_or]
    omega

/-- Whole bytes are inserted whatever the size property; only what is left is checked. -/
theorem appendBits_keepsSize (bitIsOne : Bool) (count : Fin uint32Size) :
    KeepsSize (appendBits bitIsOne count) v ↔
      (count.val = 0 ∨ v.sizeProperty = .fixed ∧ count.val < 8) := by
  by_cases hcheck : v.sizeProperty = .fixed
  · rw [KeepsSize, appendBits_run hv.usedBits_lt]
    have hcount := count.isLt
    have hused := hv.usedBits_lt
    by_cases hfew : count.val < 8
    · have hnone : count.val / 8 = 0 := by omega
      rw [hnone, insertBytes_zero hv.usedBits_lt]
      have hkept : v.hasFixedSize = true := hasFixedSize_eq hfixed
      by_cases hrem : count.val % 8 = 0
      · simp [hrem, hkept, hcheck, hfew]
      · have hreject : Rejects (append8 (bitByte bitIsOne) (count.val % 8) .right) v :=
          append8_rejects (.inl hcheck) _ _
        rw [if_neg hrem]
        exact iff_of_true hreject.keepsSize (.inr ⟨hcheck, hfew⟩)
    · have hinserted : (v.insertBytes (bitByte bitIsOne) (count.val / 8)).usedBits ≠
          v.usedBits := by
        simp only [insertBytes]
        unfold uint32Size at *
        omega
      have hdiffers : v.insertBytes (bitByte bitIsOne) (count.val / 8) ≠ v :=
        fun heq => hinserted (congrArg usedBits heq)
      by_cases hrem : count.val % 8 = 0
      · rw [if_pos hrem]
        simp only [hinserted, false_and, hcheck, true_and, false_iff]
        omega
      · obtain ⟨fault, hfault, hrun⟩ : Rejects (append8 (bitByte bitIsOne) (count.val % 8) .right)
            (v.insertBytes (bitByte bitIsOne) (count.val / 8)) :=
          append8_rejects (.inl (by exact hcheck)) _ _
        rw [if_neg hrem, hrun]
        cases fault <;> simp [hdiffers, hcheck] <;> omega
  · rw [(appendBits_lengthens hcheck hv.exactBytes.backValid hv.usedBits_lt bitIsOne
      count).keepsSize_iff_zero hfixed hv.usedBits_lt count.isLt]
    simp [hcheck]

omit hv in
theorem assign_keepsSize (rhs : BinaryVector) :
    KeepsSize (assign rhs) v ↔ (v.sizeProperty = .fixed ∨ rhs.usedBits = v.usedBits) := by
  by_cases hrejects : v.sizeProperty = .fixed ∧ rhs.usedBits ≠ v.usedBits
  · exact iff_of_true (assign_rejects hrejects.1 hrejects.2).keepsSize (.inl hrejects.1)
  · have hsize : v.sizeProperty = .fixed → rhs.usedBits = v.usedBits := by tauto
    have hkept : hasFixedSize ⟨rhs.data, rhs.usedBits,
        assignedSizeProperty v.sizeProperty rhs.sizeProperty⟩ = true := by
      apply hasFixedSize_eq
      simp only [assignedSizeProperty]
      split_ifs
      · simp
      · exact hfixed
    rw [keepsSize_ok (assign_run hsize)]
    simp only [hkept, and_true]
    tauto

theorem prependBits_keepsSize (bitsCount : Fin uint32Size) (fillPattern : BitVec 8) :
    KeepsSize (prependBits bitsCount fillPattern) v ↔
      (bitsCount.val = 0 ∨ v.sizeProperty = .fixed ∧ bitsCount.val + 7 < uint32Size) := by
  have hcount := bitsCount.isLt
  have hused := hv.usedBits_lt
  by_cases hbound : bitsCount.val + 7 < uint32Size
  · obtain ⟨tmp, htmp, -, hrun, -⟩ := prependBits_eq hv hbound fillPattern
    have hsame : tmp.usedBits = v.usedBits ↔ bitsCount.val = 0 := by
      rw [htmp]
      unfold uint32Size at *
      omega
    rw [KeepsSize, hrun]
    refine (assign_keepsSize hfixed tmp).trans ?_
    rw [hsame]
    tauto
  · have hundefined := prependBits_undefined (v := v) hcount (by omega) fillPattern
    rw [KeepsSize, hundefined]
    simp only [hbound, and_false, or_false, false_iff]
    unfold uint32Size at hbound
    omega

theorem truncateLeadingZeroes_keepsSize (count : Nat) :
    KeepsSize (truncateLeadingZeroes count) v ↔
      (v.sizeProperty = .fixed ∨ count = 0 ∨ v.leadingZeroesCount < count) := by
  by_cases hrejects : v.leadingZeroesCount < count
  · exact iff_of_true (truncateLeadingZeroes_rejects hrejects).keepsSize (.inr (.inr hrejects))
  · have hused := v.leadingZeroesCount_le
    rw [KeepsSize, truncateLeadingZeroes_run hv (by omega)]
    refine (assign_keepsSize hfixed _).trans ?_
    rw [ofBits_usedBits, List.length_drop, hv.exactBytes.bits_length]
    constructor
    · rintro (hcheck | hsame)
      · exact .inl hcheck
      · exact .inr (.inl (by omega))
    · rintro (hcheck | hnone | hmany)
      · exact .inl hcheck
      · exact .inr (by omega)
      · exact absurd hmany hrejects

theorem setInteger_keepsSize (hpos : 0 < v.usedBits) (width : UIntWidth)
    (value : BitVec width.bits) (extension : Bool) :
    KeepsSize (setInteger width value extension) v ↔
      (v.sizeProperty = .fixed ∨ v.usedBits = width.bits) := by
  by_cases hcheck : v.sizeProperty = .fixed
  · rw [keepsSize_ok (setInteger_stored hcheck hpos hv.usedBits_lt width value extension)]
    exact iff_of_true ⟨storedBits_length _ _ _, rfl⟩ (.inl hcheck)
  · have hkept : (ofBits (storedBits width.bits value extension) v.sizeProperty).hasFixedSize =
        true := hasFixedSize_eq hfixed
    rw [keepsSize_ok (setInteger_unfixed hcheck width value extension), ofBits_usedBits,
      storedBits_length]
    simp only [hkept, hcheck, and_true, false_or]
    exact eq_comm

omit hv in
theorem keepsSize_defined {mutation : Mutation Unit} {condition : Prop} [Decidable condition]
    {data : List (BitVec 8)}
    (hrun : mutation.run v =
      if condition then .ok () { v with data := data } else .error .undefinedBehaviour v) :
    KeepsSize mutation v ↔ condition := by
  rw [KeepsSize, hrun]
  by_cases hdefined : condition
  · rw [if_pos hdefined]
    exact iff_of_true ⟨rfl, hasFixedSize_eq hfixed⟩ hdefined
  · rw [if_neg hdefined]
    exact iff_of_false (fun hkeeps => hkeeps) hdefined

theorem setSlice_keepsSize (startOffset : Nat) {value : BinaryVector} (hvalue : value.Stored) :
    KeepsSize (setSlice [] startOffset value) v ↔
      (value.usedBits = 0 ∨ v.usedBits ≤ startOffset ∨
        v.usedBits < (startOffset + value.usedBits) % uint32Size ∨
          startOffset + value.usedBits ≤ 8 * v.data.length ∧
            StaysInByte startOffset value.usedBits ∧
              (startOffset % 8 = 0 ∨ startOffset % 8 + value.usedBits < uint32Size)) := by
  by_cases hrejects : value.usedBits = 0 ∨ v.usedBits ≤ startOffset ∨
      v.usedBits < (startOffset + value.usedBits) % uint32Size
  · refine iff_of_true (setSlice_rejects hv hvalue.exactBytes hrejects).keepsSize ?_
    tauto
  · push Not at hrejects
    obtain ⟨hpos, hstart, hrange⟩ := hrejects
    have hrun : (setSlice [] startOffset value).run v = _ :=
      setSlice_eq hv hvalue.exactBytes (Nat.pos_of_ne_zero hpos) hstart hrange
    simp only [ne_eq, not_true_eq_false, false_or] at hrun
    rw [keepsSize_defined hfixed hrun]
    constructor
    · intro hdefined
      exact .inr (.inr (.inr hdefined))
    · rintro (hnone | hout | hout | hdefined)
      · exact absurd hnone hpos
      · omega
      · omega
      · exact hdefined

theorem setSliceT_keepsSize (range : IndexedRange) (width : UIntWidth)
    (value : BitVec width.bits) :
    KeepsSize (setSliceT [] range width value) v ↔
      (RangeAccepted v range width value →
        StaysInByte range.left (range.right - range.left + 1)) := by
  by_cases haccepted : RangeAccepted v range width value
  · obtain ⟨w, hw, hcount, hrun⟩ := setSliceT_eq [] hv haccepted
    have hordered := haccepted.ordered
    have hinside := haccepted.inside
    rw [setSlice_inside hv hw (by omega) (by omega), hcount] at hrun
    simp only [ne_eq, not_true_eq_false, false_or] at hrun
    rw [keepsSize_defined hfixed hrun]
    simp only [haccepted, true_imp_iff]
  · exact iff_of_true (setSliceT_rejects hv haccepted).keepsSize fun h => absurd h haccepted

theorem updateBit_keepsSize (bitOffset : Nat) (update : BitVec 8 → BitVec 8 → BitVec 8) :
    KeepsSize (updateBit bitOffset update) v := by
  by_cases hin : bitOffset < v.usedBits
  · rw [keepsSize_ok (updateBit_run hv.exactBytes hin update)]
    exact ⟨rfl, hasFixedSize_eq hfixed⟩
  · exact (updateBit_rejects (by omega) update).keepsSize

theorem setBit_keepsSize (bitOffset : Nat) : KeepsSize (setBit bitOffset) v :=
  updateBit_keepsSize hv hfixed bitOffset _

theorem clearBit_keepsSize (bitOffset : Nat) : KeepsSize (clearBit bitOffset) v :=
  updateBit_keepsSize hv hfixed bitOffset _

theorem toggleBit_keepsSize (bitOffset : Nat) : KeepsSize (toggleBit bitOffset) v :=
  updateBit_keepsSize hv hfixed bitOffset _

theorem toggleBits_keepsSize : KeepsSize toggleBits v := by
  rw [keepsSize_ok (toggleBits_run hv.exactBytes)]
  exact ⟨by rw [ofBits_usedBits, List.length_map, hv.exactBytes.bits_length],
    hasFixedSize_eq hfixed⟩

theorem combine_keepsSize {rhs : BinaryVector} (hrhs : rhs.Stored)
    {combineBytes : BitVec 8 → BitVec 8 → BitVec 8} {combineBits : Bool → Bool → Bool}
    (hbytes : ∀ left right : BitVec 8, BitPacking.byteBits (combineBytes left right) =
      List.zipWith combineBits (BitPacking.byteBits left) (BitPacking.byteBits right)) :
    KeepsSize (combine combineBytes rhs) v := by
  by_cases hsize : rhs.usedBits = v.usedBits
  · rw [keepsSize_ok (combine_run hv.exactBytes hrhs.exactBytes hsize hbytes)]
    refine ⟨?_, hasFixedSize_eq hfixed⟩
    rw [ofBits_usedBits, List.length_zipWith, hv.exactBytes.bits_length,
      hrhs.exactBytes.bits_length, hsize, Nat.min_self]
  · exact (combine_rejects hsize combineBytes).keepsSize

theorem andAssign_keepsSize {rhs : BinaryVector} (hrhs : rhs.Stored) :
    KeepsSize (andAssign rhs) v :=
  combine_keepsSize hv hfixed hrhs BitPacking.byteBits_and

theorem orAssign_keepsSize {rhs : BinaryVector} (hrhs : rhs.Stored) :
    KeepsSize (orAssign rhs) v :=
  combine_keepsSize hv hfixed hrhs BitPacking.byteBits_or

theorem xorAssign_keepsSize {rhs : BinaryVector} (hrhs : rhs.Stored) :
    KeepsSize (xorAssign rhs) v :=
  combine_keepsSize hv hfixed hrhs BitPacking.byteBits_xor

end

/-! ### The promise of a fixed size -/

private theorem ofBits_true_stored (p : SizeProperty) : (ofBits [true] p).Stored where
  exactBytes := (ofBits_wellFormed [true] p).exactBytes
  usedBits_lt := show 1 < uint32Size by decide

end BinaryVector

end Mast
