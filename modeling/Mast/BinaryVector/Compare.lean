import Mast.BinaryVector.Basic

/-!
# Comparison of bit vectors

`CompareEqualTo`: only the used bits are compared, whatever the last byte holds past them.
-/

namespace Mast

open BitPacking

namespace BinaryVector

/-- `CompareEqualTo(rhs)`, also `operator==`; a buffer of at least one bit is taken not to be empty. -/
def compareEqualTo (v rhs : BinaryVector) : Bool :=
  if v.usedBits ≠ rhs.usedBits then false
  else if v.usedBits = 0 then true
  else
    let bitsOnLastByte := v.usedBits % 8
    if bitsOnLastByte = 0 then v.data == rhs.data
    else
      let areEqual := if v.data.length > 1 then v.data.dropLast == rhs.data.dropLast else true
      areEqual &&
        v.data.getLast?.getD 0 &&& leftBitsMask8 bitsOnLastByte ==
          rhs.data.getLast?.getD 0 &&& leftBitsMask8 bitsOnLastByte

theorem ExactBytes.exists_last {v : BinaryVector} (hexact : v.ExactBytes)
    (hincomplete : v.usedBits % 8 ≠ 0) :
    ∃ front last, v.data = front ++ [last] ∧ v.usedBits = 8 * front.length + v.usedBits % 8 ∧
      v.bits = unpack front ++ (byteBits last).take (v.usedBits % 8) := by
  have hne : v.data ≠ [] := by
    intro hempty
    rw [ExactBytes, hempty, bytesFor, List.length_nil] at hexact
    omega
  obtain ⟨front, last, hdata⟩ := (List.eq_nil_or_concat' v.data).resolve_left hne
  have hfront : v.usedBits = 8 * front.length + v.usedBits % 8 := by
    rw [ExactBytes, hdata, bytesFor, List.length_append, List.length_singleton] at hexact
    omega
  refine ⟨front, last, hdata, hfront, ?_⟩
  rw [bits, hdata, ← take_unpack_concat, ← hfront]

theorem byteBits_take_injective {byte byte' : Byte} {count : Nat} (hcount : count ≤ 8) :
    byte &&& leftBitsMask8 count = byte' &&& leftBitsMask8 count ↔
      (byteBits byte).take count = (byteBits byte').take count := by
  have hbits : byte &&& leftBitsMask8 count = byte' &&& leftBitsMask8 count ↔
      byteBits (byte &&& leftBitsMask8 count) = byteBits (byte' &&& leftBitsMask8 count) :=
    ⟨fun h => h ▸ rfl, fun h => byteBits_injective h⟩
  rw [hbits, byteBits_and_leftBitsMask8 _ hcount, byteBits_and_leftBitsMask8 _ hcount]
  exact List.append_left_inj _

theorem compareEqualTo_iff {v rhs : BinaryVector} (hv : v.ExactBytes) (hrhs : rhs.ExactBytes) :
    v.compareEqualTo rhs ↔ v.bits = rhs.bits := by
  have hlength := hv.bits_length
  have hlength' := hrhs.bits_length
  unfold compareEqualTo
  by_cases hsize : v.usedBits = rhs.usedBits
  · rw [if_neg (not_not.mpr hsize)]
    by_cases hnone : v.usedBits = 0
    · have hleft : v.bits = [] := List.length_eq_zero_iff.mp (by omega)
      have hright : rhs.bits = [] := List.length_eq_zero_iff.mp (by omega)
      simp [hnone, hleft, hright]
    · rw [if_neg hnone]
      by_cases haligned : v.usedBits % 8 = 0
      · have hall : ∀ {w : BinaryVector}, w.ExactBytes → w.usedBits % 8 = 0 →
            w.bits = unpack w.data := by
          intro w hw hmod
          apply List.take_of_length_le
          rw [unpack_length, hw, bytesFor]
          omega
        simp only [if_pos haligned, beq_iff_eq]
        rw [hall hv haligned, hall hrhs (hsize ▸ haligned)]
        exact ⟨fun h => h ▸ rfl, fun h => unpack_injective h⟩
      · obtain ⟨front, last, hdata, hfront, hbits⟩ := hv.exists_last haligned
        obtain ⟨front', last', hdata', hfront', hbits'⟩ := hrhs.exists_last (hsize ▸ haligned)
        have hfronts : front.length = front'.length := by omega
        have hguard : (if v.data.length > 1 then v.data.dropLast == rhs.data.dropLast else true) =
            (front == front') := by
          rw [hdata, hdata', List.dropLast_concat, List.dropLast_concat]
          split_ifs with hlong
          · rfl
          · have hempty : front = [] := by
              rw [List.length_append, List.length_singleton] at hlong
              exact List.length_eq_zero_iff.mp (by omega)
            have hempty' : front' = [] := List.length_eq_zero_iff.mp (by rw [← hfronts, hempty]; rfl)
            rw [hempty, hempty']
            rfl
        have hunpack : (unpack front).length = (unpack front').length := by
          rw [unpack_length, unpack_length, hfronts]
        simp only [if_neg haligned, hguard]
        rw [hbits, hbits', ← hsize, hdata, hdata', List.getLast?_concat, List.getLast?_concat]
        simp only [Option.getD_some, Bool.and_eq_true, beq_iff_eq]
        rw [byteBits_take_injective (by omega)]
        constructor
        · rintro ⟨rfl, hlast⟩
          rw [hlast]
        · intro hequal
          obtain ⟨hunpacked, hlast⟩ := List.append_inj hequal hunpack
          exact ⟨unpack_injective hunpacked, hlast⟩
  · rw [if_pos hsize]
    refine iff_of_false (by decide) fun h => hsize ?_
    rw [← hlength, h, hlength']

end BinaryVector

end Mast
