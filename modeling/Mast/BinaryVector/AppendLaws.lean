import Mast.BinaryVector.Compare
import Mast.BinaryVector.Slice

/-!
# Appending is concatenation

What `Append` adds to a vector, whatever bit its last byte stops at: the bits of another vector, or the least or most significant bits of an integer. A vector of fixed size refuses all of it, but `operator+` copies its left operand, and a copy can grow again.
-/

namespace Mast

open BitPacking

namespace BinaryVector

/-- `operator+`. -/
def concat (v rhs : BinaryVector) : Except Fault BinaryVector := build v.copy (append rhs)

/-- The most significant bits of an integer, or its least significant ones, in order. -/
def integerBits {width : Nat} (value : BitVec width) (numberOfBits : Nat) :
    BitsAlignment → List Bool
  | .left => (List.range numberOfBits).map value.getMsbD
  | .right => (List.range numberOfBits).map fun i => value.getMsbD (width - numberOfBits + i)

/-! ### Integers -/

theorem integerBits_left {width numberOfBits : Nat} (hle : numberOfBits ≤ width)
    (value : BitVec width) :
    integerBits value numberOfBits .left =
      ((List.range width).map value.getMsbD).take numberOfBits := by
  rw [← List.map_take, List.take_range, Nat.min_eq_left hle]
  rfl

theorem integerBits_right {width numberOfBits : Nat} (hle : numberOfBits ≤ width)
    (value : BitVec width) :
    integerBits value numberOfBits .right =
      ((List.range width).map value.getMsbD).drop (width - numberOfBits) := by
  apply List.ext_getElem
  · simp only [integerBits, List.length_map, List.length_range, List.length_drop]
    omega
  · intro i hleft hright
    simp only [integerBits, List.getElem_map, List.getElem_range, List.getElem_drop]

@[simp] theorem integerBits_length {width : Nat} (value : BitVec width) (numberOfBits : Nat)
    (alignment : BitsAlignment) : (integerBits value numberOfBits alignment).length = numberOfBits := by
  cases alignment <;> simp [integerBits]

theorem appendChunks_left {numberOfBits : Nat} {chunks : List Byte} (hpos : 0 < numberOfBits)
    (hle : numberOfBits ≤ 8 * chunks.length) (hsmall : 8 * chunks.length < 256) {l : List Bool}
    {p : SizeProperty} (hfree : p ≠ .fixed) (hbound : l.length + numberOfBits < uint32Size) :
    (appendChunks numberOfBits .left chunks).run (ofBits l p) =
      .ok () (ofBits (l ++ (unpack chunks).take numberOfBits) p) := by
  have hmax : chunks.length * 8 % 256 = 8 * chunks.length := by omega
  have hmaxBits : numberOfBits ≤ chunks.length * 8 % 256 := by omega
  have hskip := skipChunks_eq .left 0 hpos
    (show numberOfBits ≤ 8 * ((8 * chunks.length - 8) / 8 + 1) by omega)
  have hfrom := @appendChunksFrom_ofBits .left chunks ((numberOfBits - 1) / 8) numberOfBits 0
    (by omega) (by omega) (by omega) l p hfree hbound
  rw [List.drop_zero, chunkBits] at hfrom
  simp only [appendChunks, EStateM.run_bind, checkFixedSize_run (v := ofBits l p) hfree,
    checkAtLeast1Bit_run hpos, check_run hmaxBits]
  simp only [hmax, hskip, reduceCtorEq, if_false, hfrom]

theorem appendWord_bits {size numberOfBits : Nat} (hpos : 0 < numberOfBits)
    (hle : numberOfBits ≤ 8 * size) (hsmall : 8 * size < 256) {l : List Bool} {p : SizeProperty}
    (hfree : p ≠ .fixed) (hbound : l.length + numberOfBits < uint32Size) (value : BitVec (8 * size))
    (alignment : BitsAlignment) :
    (appendWord (bigEndian size value) numberOfBits alignment).run (ofBits l p) =
      .ok () (ofBits (l ++ integerBits value numberOfBits alignment) p) := by
  have hsize : (bigEndian size value).length = size := bigEndian_length size value
  rw [appendWord_run (v := ofBits l p) hpos hfree]
  cases alignment with
  | left =>
    rw [appendChunks_left hpos (by omega) (by omega) hfree hbound, unpack_bigEndian,
      integerBits_left hle]
  | right =>
    rw [appendChunks_right hpos (by omega) (by omega) hfree hbound, unpack_bigEndian, hsize,
      integerBits_right hle]

theorem appendUInt_bits {width : UIntWidth} {numberOfBits : Nat} (hpos : 0 < numberOfBits)
    (hle : numberOfBits ≤ width.bits) {l : List Bool} {p : SizeProperty} (hfree : p ≠ .fixed)
    (hbound : l.length + numberOfBits < uint32Size) (value : BitVec width.bits)
    (alignment : BitsAlignment) :
    (appendUInt width value numberOfBits alignment).run (ofBits l p) =
      .ok () (ofBits (l ++ integerBits value numberOfBits alignment) p) := by
  cases width with
  | w8 =>
    have hbits : alignedBits value numberOfBits alignment =
        integerBits value numberOfBits alignment := by
      cases alignment with
      | left =>
        rw [integerBits_left hle]
        rfl
      | right =>
        rw [integerBits_right hle]
        rfl
    rw [← hbits]
    exact append8_ofBits hpos hle hfree hbound value alignment
  | w16 => exact @appendWord_bits 2 _ hpos hle (by decide) _ _ hfree hbound value alignment
  | w32 => exact @appendWord_bits 4 _ hpos hle (by decide) _ _ hfree hbound value alignment
  | w64 => exact @appendWord_bits 8 _ hpos hle (by decide) _ _ hfree hbound value alignment

/-! ### Concatenations -/

theorem copy_ofBits (l : List Bool) (p : SizeProperty) :
    (ofBits l p).copy = ofBits l (copiedSizeProperty p) := rfl

theorem copiedSizeProperty_free (p : SizeProperty) : copiedSizeProperty p ≠ .fixed := by
  cases p <;> exact SizeProperty.noConfusion

theorem concat_ofBits {l : List Bool} {p : SizeProperty} {rhs : BinaryVector}
    (hrhs : rhs.ExactBytes) (hbound : l.length + rhs.usedBits < uint32Size) :
    concat (ofBits l p) rhs = .ok (ofBits (l ++ rhs.bits) (copiedSizeProperty p)) := by
  rw [concat, copy_ofBits, build, append_ofBits hrhs (copiedSizeProperty_free p) hbound]

/-- What appending to a vector should do: a vector or an integer is added behind its bits, the parts of a concatenation can be read back, and concatenations are associative. Only a vector of fixed size refuses to grow. -/
structure AppendLaws (v : BinaryVector) : Prop where
  vector (w : BinaryVector) : v.sizeProperty ≠ .fixed → w.Stored →
    v.usedBits + w.usedBits < uint32Size →
      (append w).run v = .ok () (ofBits (v.bits ++ w.bits) v.sizeProperty)
  integer (width : UIntWidth) (value : BitVec width.bits) (numberOfBits : Nat)
    (alignment : BitsAlignment) : v.sizeProperty ≠ .fixed → 0 < numberOfBits →
      numberOfBits ≤ width.bits → v.usedBits + numberOfBits < uint32Size →
      (appendUInt width value numberOfBits alignment).run v =
        .ok () (ofBits (v.bits ++ integerBits value numberOfBits alignment) v.sizeProperty)
  count (width : UIntWidth) (value : BitVec width.bits) (numberOfBits : Nat)
    (alignment : BitsAlignment) : numberOfBits = 0 ∨ width.bits < numberOfBits →
      Rejects (appendUInt width value numberOfBits alignment) v
  fixed : v.sizeProperty = .fixed → (∀ w, Rejects (append w) v) ∧
    ∀ (width : UIntWidth) (value : BitVec width.bits) (numberOfBits : Nat)
      (alignment : BitsAlignment), Rejects (appendUInt width value numberOfBits alignment) v
  slices (w : BinaryVector) : w.Stored → v.usedBits + w.usedBits < uint32Size →
    ∃ s first second, concat v w = .ok s ∧ s.bits = v.bits ++ w.bits ∧
      s.slice 0 v.usedBits = .ok first ∧ first.compareEqualTo v = true ∧
      s.slice v.usedBits w.usedBits = .ok second ∧ second.compareEqualTo w = true
  assoc (u w : BinaryVector) : u.WellFormed → w.Stored →
    v.usedBits + u.usedBits + w.usedBits < uint32Size →
      ∃ vu uw left right, concat v u = .ok vu ∧ concat vu w = .ok left ∧ concat u w = .ok uw ∧
        concat v uw = .ok right ∧ left.compareEqualTo right = true

theorem slice_ofBits {l : List Bool} {p : SizeProperty} {first count : Nat}
    (hused : l.length < uint32Size) (hrange : first + count ≤ l.length) :
    (ofBits l p).slice first count = .ok (ofBits ((l.drop first).take count) .notFixed) := by
  have hslice := slice_eq (ofBits_wellFormed l p).exactBytes hused hrange
  rwa [bits_ofBits] at hslice

theorem compareEqualTo_of_bits {l : List Bool} {p : SizeProperty} {w : BinaryVector}
    (hw : w.ExactBytes) (hbits : l = w.bits) : (ofBits l p).compareEqualTo w = true :=
  (compareEqualTo_iff (ofBits_wellFormed l p).exactBytes hw).mpr ((bits_ofBits l p).trans hbits)

/-- Appending to a vector in its intended representation is concatenation. -/
theorem appendLaws {v : BinaryVector} (hv : v.WellFormed) : AppendLaws v := by
  obtain ⟨l, p, rfl⟩ := wellFormed_iff.mp hv
  constructor
  · intro w hfree hw hbound
    rw [bits_ofBits]
    exact append_ofBits hw.exactBytes hfree hbound
  · intro width value numberOfBits alignment hfree hpos hle hbound
    rw [bits_ofBits]
    exact appendUInt_bits hpos hle hfree hbound value alignment
  · intro width value numberOfBits alignment hcount
    exact appendUInt_rejects (.inr hcount) value alignment
  · intro hfixed
    exact ⟨fun w => append_rejects hfixed w, fun width value numberOfBits alignment =>
      appendUInt_rejects (.inl hfixed) value alignment⟩
  · intro w hw hbound
    have hlength := hw.exactBytes.bits_length
    have hsize : (l ++ w.bits).length = l.length + w.usedBits := by
      rw [List.length_append, hlength]
    rw [ofBits_usedBits] at hbound ⊢
    refine ⟨_, _, _, concat_ofBits hw.exactBytes hbound, ?_,
      slice_ofBits (by omega) (by omega), ?_, slice_ofBits (by omega) (by omega), ?_⟩
    · rw [bits_ofBits, bits_ofBits]
    · refine compareEqualTo_of_bits hv.exactBytes ?_
      rw [List.drop_zero, List.take_left, bits_ofBits]
    · refine compareEqualTo_of_bits hw.exactBytes ?_
      rw [List.drop_left, ← hlength, List.take_length]
  · intro u w hu hw hbound
    obtain ⟨m, q, rfl⟩ := wellFormed_iff.mp hu
    have hlength := hw.exactBytes.bits_length
    rw [ofBits_usedBits, ofBits_usedBits] at hbound
    refine ⟨_, _, _, _, concat_ofBits hu.exactBytes (by rw [ofBits_usedBits]; omega),
      concat_ofBits hw.exactBytes ?_, concat_ofBits hw.exactBytes (by omega),
      concat_ofBits (ofBits_wellFormed _ _).exactBytes ?_, ?_⟩
    · rw [List.length_append, bits_ofBits]
      omega
    · rw [ofBits_usedBits, List.length_append]
      omega
    · refine compareEqualTo_of_bits (ofBits_wellFormed _ _).exactBytes ?_
      rw [bits_ofBits, bits_ofBits, bits_ofBits, List.append_assoc]

theorem appendLaws_five_bits : AppendLaws (ofBits [true, false, true, true, false] .notFixed) :=
  appendLaws (ofBits_wellFormed _ _)

/-- A vector of fixed size does not take a bit more. -/
theorem not_appendLaws_fixed :
    ¬∀ v w : BinaryVector, v.WellFormed → w.Stored → v.usedBits + w.usedBits < uint32Size →
      ∃ v', (append w).run v = .ok () v' ∧ v'.bits = v.bits ++ w.bits := by
  intro hall
  obtain ⟨v', hrun, -⟩ := hall (ofBits [true] .fixed) (ofBits [true] .notFixed)
    (ofBits_wellFormed _ _) ⟨(ofBits_wellFormed _ _).exactBytes, by decide⟩ (by decide)
  cases hrun

end BinaryVector

end Mast
