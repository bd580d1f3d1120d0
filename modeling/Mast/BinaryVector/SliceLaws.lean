import Mast.BinaryVector.Compare
import Mast.BinaryVector.SliceAccess

/-!
# The laws of slices

Nothing can be read behind a vector here. Then slices and the assignment of a range do what they should for all ranges but some: those whose end wraps in 32 bits, reversed slices of nearly 2^32 bits, and assignments that read one byte too many.
-/

namespace Mast

open BitPacking

namespace BinaryVector

/-- What slices at a range and the assignment of a vector at its start should do: a slice is rejected unless its range is inside of the vector, an assignment is read back and changes nothing else, and its accesses stay inside of both buffers. -/
structure SliceLaws (v w : BinaryVector) (offset count : Nat) : Prop where
  rejects : count ≠ 0 → v.usedBits < offset + count →
    ∃ fault, fault ≠ .undefinedBehaviour ∧ v.slice offset count = .error fault
  reads : count = 0 ∨ offset + count ≤ v.usedBits →
    v.slice offset count = .ok (ofBits ((v.bits.drop offset).take count) .notFixed)
  writes : 0 < w.usedBits → offset + w.usedBits ≤ v.usedBits →
    ∃ v', (setSlice [] offset w).run v = .ok () v' ∧ v'.usedBits = v.usedBits ∧
      (∃ s, v'.slice offset w.usedBits = .ok s ∧ s.compareEqualTo w = true) ∧
      ∀ i, i < offset ∨ offset + w.usedBits ≤ i → v'.bits[i]? = v.bits[i]?
  reverses : v.reverseSlice offset count =
    (v.slice offset count).map fun s => ofBits s.bits.reverse .notFixed

/-- The end of the slice does not wrap in 32 bits, nor does the number of bytes of a reversed one, and the assignment does not read the byte behind its source. -/
structure SliceSafe (v w : BinaryVector) (offset count : Nat) : Prop where
  slice : count ≠ 0 → offset < v.usedBits → offset + count < uint32Size
  reverse : offset + count ≤ v.usedBits → count + 7 < uint32Size
  assignment : 0 < w.usedBits → offset + w.usedBits ≤ v.usedBits → StaysInByte offset w.usedBits

section Laws

variable {v w : BinaryVector} {offset count : Nat}

theorem reverseSlice_error {fault : Fault} (hsome : count ≠ 0)
    (hslice : v.slice offset count = .error fault) :
    v.reverseSlice offset count = .error fault := by
  rw [reverseSlice, if_neg hsome, hslice]
  rfl

/-- Of nearly 2^32 bits no byte is kept, so that the last one cannot be masked. -/
theorem reverseSlice_undefined (hv : v.Stored) (hrange : offset + count ≤ v.usedBits)
    (hmany : uint32Size ≤ count + 7) :
    v.reverseSlice offset count = .error .undefinedBehaviour := by
  have hused := hv.usedBits_lt
  have hsome : count ≠ 0 := by
    unfold uint32Size at hmany
    omega
  have hslice := slice_eq hv.exactBytes hused hrange
  have hsize := hv.exactBytes.bits_length
  have hlength : ((v.bits.drop offset).take count).length = count := by
    rw [List.length_take, List.length_drop]
    omega
  rw [reverseSlice, if_neg hsome, hslice]
  simp only [bind, Except.bind, ofBits_data, ofBits_usedBits, hlength]
  refine createFromRightAlignedBuffer_wraps ?_ (by omega) hmany .notFixed
  apply List.ne_nil_of_length_pos
  rw [List.length_map, List.length_reverse, pack_length, hlength, bytesFor]
  omega

theorem writes_iff (hv : v.Stored) (hw : w.Stored) (hpos : 0 < w.usedBits)
    (hrange : offset + w.usedBits ≤ v.usedBits) :
    (∃ v', (setSlice [] offset w).run v = .ok () v' ∧ v'.usedBits = v.usedBits ∧
      (∃ s, v'.slice offset w.usedBits = .ok s ∧ s.compareEqualTo w = true) ∧
      ∀ i, i < offset ∨ offset + w.usedBits ≤ i → v'.bits[i]? = v.bits[i]?) ↔
      StaysInByte offset w.usedBits := by
  constructor
  · rintro ⟨v', hrun, -⟩
    by_contra hspills
    rw [setSlice_undefined hv hw.exactBytes hpos hrange hspills] at hrun
    cases hrun
  · intro hstays
    obtain ⟨v', hrun, hstored, hused, hbits⟩ :=
      setSlice_bits [] hv hw.exactBytes hpos hrange (.inr hstays)
    have hlength := hw.exactBytes.bits_length
    have hsize := hv.exactBytes.bits_length
    have hfits : offset + w.bits.length ≤ v.bits.length := by omega
    refine ⟨v', hrun, hused, ?_, ?_⟩
    · have hread : (v'.bits.drop offset).take w.usedBits = w.bits := by
        rw [hbits, splice, List.append_assoc, List.drop_append_of_le_length (by simp; omega),
          List.drop_of_length_le (by simp), List.nil_append, List.take_left' hlength]
      refine ⟨_, slice_eq hstored.exactBytes hstored.usedBits_lt (by omega), ?_⟩
      rw [compareEqualTo_iff (ofBits_wellFormed _ _).exactBytes hw.exactBytes, bits_ofBits, hread]
    · intro i hout
      rw [hbits, splice_getElem? hfits, if_neg (by omega)]

/-- A slice that is not safe is not rejected although its range ends behind the vector. -/
theorem slice_not_rejected (hv : v.Stored) (hoffset : offset < v.usedBits) (hcount : count < uint32Size)
    (hwraps : uint32Size ≤ offset + count) {fault : Fault} (hfault : fault ≠ .undefinedBehaviour) :
    v.slice offset count ≠ .error fault := by
  have hused := hv.usedBits_lt
  have hlast : (offset + count) % uint32Size ≤ v.usedBits := by
    rw [Nat.mod_eq_sub_mod hwraps, Nat.mod_eq_of_lt (by omega)]
    omega
  intro hslice
  by_cases hbuffer : offset + count ≤ 8 * v.data.length
  · rw [slice_buffer hcount hoffset hlast hbuffer] at hslice
    cases hslice
  · rw [slice_undefined hcount hoffset hlast (by omega) (by omega)] at hslice
    exact hfault (Except.error.inj hslice).symm

theorem slice_outside (hsafe : offset < v.usedBits → offset + count < uint32Size) (hsome : count ≠ 0)
    (hout : v.usedBits < offset + count) :
    ∃ fault, fault ≠ .undefinedBehaviour ∧ v.slice offset count = .error fault := by
  refine slice_rejects hsome ?_
  by_cases hin : offset < v.usedBits
  · right
    rwa [Nat.mod_eq_of_lt (hsafe hin)]
  · left
    omega

/-- The laws of slices hold exactly for the safe ranges. -/
theorem sliceLaws_iff (hv : v.Stored) (hw : w.Stored) (hcount : count < uint32Size) :
    SliceLaws v w offset count ↔ SliceSafe v w offset count := by
  have hused := hv.usedBits_lt
  constructor
  · intro hlaws
    refine ⟨fun hsome hin => ?_, fun hrange => ?_, fun hpos hrange => ?_⟩
    · by_contra hwraps
      obtain ⟨fault, hfault, hslice⟩ := hlaws.rejects hsome (by omega)
      exact slice_not_rejected hv hin hcount (by omega) hfault hslice
    · by_contra hmany
      have hreverses := hlaws.reverses
      rw [reverseSlice_undefined hv hrange (by omega), hlaws.reads (.inr hrange)] at hreverses
      cases hreverses
    · exact (writes_iff hv hw hpos hrange).mp (hlaws.writes hpos hrange)
  · intro hsafe
    refine ⟨fun hsome hout => ?_, fun hin => ?_, fun hpos hrange => ?_, ?_⟩
    · exact slice_outside (hsafe.slice hsome) hsome hout
    · rcases hin with hnone | hrange
      · rw [hnone, slice, if_pos rfl, List.take_zero, empty_eq_ofBits]
      · exact slice_eq hv.exactBytes hused hrange
    · exact (writes_iff hv hw hpos hrange).mpr (hsafe.assignment hpos hrange)
    · by_cases hnone : count = 0
      · rw [hnone, reverseSlice, slice, if_pos rfl, if_pos rfl]
        rfl
      · by_cases hrange : offset + count ≤ v.usedBits
        · rw [slice_eq hv.exactBytes hused hrange,
            reverseSlice_eq hv.exactBytes hused hrange (hsafe.reverse hrange)]
          exact congrArg Except.ok (congrArg (ofBits · .notFixed)
            (congrArg List.reverse (bits_ofBits _ _)).symm)
        · obtain ⟨fault, -, hslice⟩ := slice_outside (hsafe.slice hnone) hnone
            (by omega)
          rw [reverseSlice_error hnone hslice, hslice]
          rfl

theorem sliceLaws_two_bits : SliceLaws (ofBits [true, false, true] .notFixed)
    (ofBits [false, true] .notFixed) 1 2 :=
  (sliceLaws_iff ⟨(ofBits_wellFormed _ _).exactBytes, by decide⟩
    ⟨(ofBits_wellFormed _ _).exactBytes, by decide⟩ (by decide)).mpr
    ⟨fun _ _ => by decide, fun _ => by decide, fun _ _ => by decide⟩

/-- Eight bits are assigned behind the first one: all of the second source byte is masked out, but it is read. -/
theorem not_sliceLaws :
    ¬∀ (v w : BinaryVector) (offset count : Nat), v.Stored → w.Stored → offset < uint32Size →
      count < uint32Size → SliceLaws v w offset count := by
  intro hall
  have hv : (ofBits (List.replicate 9 false) .notFixed).Stored :=
    ⟨(ofBits_wellFormed _ _).exactBytes, by decide⟩
  have hw : (ofBits (List.replicate 8 true) .notFixed).Stored :=
    ⟨(ofBits_wellFormed _ _).exactBytes, by decide⟩
  have hlaws := hall _ _ 1 0 hv hw (by decide) (by decide)
  obtain ⟨v', hrun, -⟩ := hlaws.writes (by decide) (by decide)
  rw [setSlice_undefined hv hw.exactBytes (by decide) (by decide) (by decide)] at hrun
  cases hrun

end Laws

end BinaryVector

end Mast
