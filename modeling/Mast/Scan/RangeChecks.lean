import Mast.Lib.Outcome
import Mast.Scan.Register

/-!
# What the range checks let through

`Slice` and `SetSlice` add the offset and the number of bits in 32 bits. A range that ends behind the vector is refused unless that sum wraps; then bytes are read or written that the vector does not have.
-/

namespace Mast

open BitPacking Outcome

namespace Bits

variable {bits value result : Bits} {firstBitOffset bitsCount startOffset : Nat}

theorem toVector_usedBits (bits : Bits) : bits.toVector.usedBits = bits.length :=
  BinaryVector.ofBits_usedBits bits .notFixed

theorem toVector_data_length (bits : Bits) : bits.toVector.data.length = bytesFor bits.length := by
  simp [toVector]

theorem toVector_bits (bits : Bits) : bits.toVector.bits = bits :=
  BinaryVector.bits_ofBits bits .notFixed

theorem toVector_exactBytes (bits : Bits) : bits.toVector.ExactBytes :=
  (BinaryVector.ofBits_wellFormed bits .notFixed).exactBytes

theorem toVector_stored (hbits : bits.length < uint32Size) : bits.toVector.Stored :=
  ⟨toVector_exactBytes bits, by rwa [toVector_usedBits]⟩

/-! ### Reading -/

theorem slice_rejects (hsome : bitsCount ≠ 0)
    (hout : bits.length ≤ firstBitOffset ∨
      bits.length < (firstBitOffset + bitsCount) % uint32Size) :
    ∃ fault, fault ≠ .undefinedBehaviour ∧ bits.slice firstBitOffset bitsCount = .error fault := by
  obtain ⟨fault, hdefined, hslice⟩ :=
    BinaryVector.slice_rejects hsome (v := bits.toVector) (by rwa [toVector_usedBits])
  exact ⟨fault, hdefined, by rw [slice, hslice]; rfl⟩

/-- Where the sum wraps, the vector is read past its end. -/
theorem slice_undefined (hbits : bits.length + 7 < uint32Size) (hcount : bitsCount < uint32Size)
    (hfirst : firstBitOffset < bits.length) (hwraps : uint32Size ≤ firstBitOffset + bitsCount) :
    bits.slice firstBitOffset bitsCount = .error .undefinedBehaviour := by
  have hbytes := bytesFor_lt bits.length
  have hlast : (firstBitOffset + bitsCount) % uint32Size ≤ bits.length := by
    rw [Nat.mod_eq_sub_mod hwraps, Nat.mod_eq_of_lt (by omega)]
    omega
  have hslice : bits.toVector.slice firstBitOffset bitsCount = .error .undefinedBehaviour := by
    apply BinaryVector.slice_undefined hcount
    · rwa [toVector_usedBits]
    · rwa [toVector_usedBits]
    · rw [toVector_data_length]
      omega
    · omega
  rw [slice, hslice]
  rfl

/-- A slice that is read has bits of the vector only. -/
theorem mem_of_slice (hbits : bits.length + 7 < uint32Size)
    (hslice : bits.slice firstBitOffset bitsCount = .ok result) {bit : Bool} (hbit : bit ∈ result) :
    bit ∈ bits := by
  by_cases hnone : bitsCount = 0
  · subst hnone
    obtain ⟨vector, hvector, rfl⟩ := map_eq_ok.mp hslice
    rw [BinaryVector.slice, if_pos rfl] at hvector
    obtain rfl := Except.ok.inj hvector
    cases hbit
  · have hbytes := bytesFor_lt bits.length
    obtain ⟨vector, hvector, -⟩ := map_eq_ok.mp hslice
    obtain ⟨hfirst, hbuffer, hlast⟩ := BinaryVector.slice_within hnone hvector
    rw [toVector_data_length] at hbuffer
    rw [toVector_usedBits, Nat.mod_eq_of_lt (by omega)] at hlast
    rw [slice_eq (by omega) hlast] at hslice
    obtain rfl := Except.ok.inj hslice
    exact List.mem_of_mem_drop (List.mem_of_mem_take hbit)

/-! ### Writing -/

theorem setSlice_rejects (hbits : bits.length < uint32Size)
    (hout : bits.length ≤ startOffset ∨
      bits.length < (startOffset + value.length) % uint32Size) :
    ∃ fault, fault ≠ .undefinedBehaviour ∧ bits.setSlice startOffset value = .error fault := by
  obtain ⟨fault, hdefined, hrun⟩ : BinaryVector.Rejects
      (BinaryVector.setSlice [0] startOffset value.toVector) bits.toVector := by
    apply BinaryVector.setSlice_rejects (toVector_stored hbits) (toVector_exactBytes value)
    rw [toVector_usedBits, toVector_usedBits]
    exact .inr hout
  exact ⟨fault, hdefined, by rw [setSlice, BinaryVector.build, hrun]; rfl⟩

/-- The assignment of a range that passes the checks writes the range of the buffer, unless the test for a part of one byte wraps. -/
theorem setSlice_checked (hbits : bits.length < uint32Size) (hvalue : value ≠ [])
    (hstart : startOffset < bits.length)
    (hrange : (startOffset + value.length) % uint32Size ≤ bits.length) :
    bits.setSlice startOffset value =
      if startOffset + value.length ≤ 8 * bytesFor bits.length ∧
          (startOffset % 8 = 0 ∨ startOffset % 8 + value.length < uint32Size) then
        .ok ((splice (unpack bits.toVector.data) startOffset value).take bits.length)
      else .error .undefinedBehaviour := by
  have hvaluePos := List.length_pos_of_ne_nil hvalue
  have hexact := toVector_exactBytes value
  have hlength := toVector_usedBits value
  have hsourceBits := BinaryVector.sourceBits_data hexact [0]
  rw [hlength, toVector_bits] at hsourceBits
  have hrun : (BinaryVector.setSlice [0] startOffset (toVector value)).run (toVector bits) = _ :=
    BinaryVector.setSlice_eq (toVector_stored hbits) hexact (by omega) (by rwa [toVector_usedBits])
    (by rwa [toVector_usedBits, toVector_usedBits])
  simp only [hlength, toVector_data_length, ne_eq, List.cons_ne_self, not_false_eq_true,
    true_or, true_and] at hrun
  rw [setSlice, BinaryVector.build, hrun]
  by_cases hinside : startOffset + value.length ≤ 8 * bytesFor bits.length ∧
      (startOffset % 8 = 0 ∨ startOffset % 8 + value.length < uint32Size)
  · rw [if_pos hinside, if_pos hinside]
    have hwrite := BinaryVector.unpack_writtenSlice
      (show startOffset + value.length ≤ 8 * bits.toVector.data.length by
        rw [toVector_data_length]
        exact hinside.1) fun offset => (value.toVector.data ++ [0]).getD offset 0
    rw [hsourceBits] at hwrite
    simp only [Except.map, BinaryVector.bits, hwrite, toVector_usedBits]
  · rw [if_neg hinside, if_neg hinside]
    rfl

/-- Where the sum wraps, the vector is written past its end. -/
theorem setSlice_undefined (hbits : bits.length + 7 < uint32Size) (hvalue : value.length < uint32Size)
    (hstart : startOffset < bits.length) (hwraps : uint32Size ≤ startOffset + value.length) :
    bits.setSlice startOffset value = .error .undefinedBehaviour := by
  have hbytes := bytesFor_lt bits.length
  have hrange : (startOffset + value.length) % uint32Size ≤ bits.length := by
    rw [Nat.mod_eq_sub_mod hwraps, Nat.mod_eq_of_lt (by omega)]
    omega
  rw [setSlice_checked (by omega) (List.ne_nil_of_length_pos (by omega)) hstart hrange,
    if_neg (by omega)]

/-- A slice that is written ends where the range check in 32 bits lets it, and inside of the buffer. -/
theorem setSlice_within (hbits : bits.length < uint32Size)
    (hset : bits.setSlice startOffset value = .ok result) :
    startOffset < bits.length ∧ startOffset + value.length ≤ 8 * bytesFor bits.length ∧
      (startOffset + value.length) % uint32Size ≤ bits.length ∧ value ≠ [] := by
  by_cases hout : bits.length ≤ startOffset ∨
      bits.length < (startOffset + value.length) % uint32Size
  · obtain ⟨fault, -, herror⟩ := setSlice_rejects hbits hout
    rw [herror] at hset
    cases hset
  · push Not at hout
    by_cases hvalue : value = []
    · subst hvalue
      cases hset
    · rw [setSlice_checked hbits hvalue hout.1 hout.2] at hset
      split at hset
      · rename_i hinside
        exact ⟨hout.1, hinside.1, hout.2, hvalue⟩
      · cases hset

theorem setSlice_result (hbits : bits.length < uint32Size)
    (hset : bits.setSlice startOffset value = .ok result) :
    result = (splice (unpack bits.toVector.data) startOffset value).take bits.length := by
  obtain ⟨hstart, -, hrange, hvalue⟩ := setSlice_within hbits hset
  rw [setSlice_checked hbits hvalue hstart hrange] at hset
  split at hset
  · exact (Except.ok.inj hset).symm
  · cases hset

theorem setSlice_length (hbits : bits.length < uint32Size)
    (hset : bits.setSlice startOffset value = .ok result) : result.length = bits.length := by
  obtain ⟨hstart, hbuffer, hrange, hvalue⟩ := setSlice_within hbits hset
  have hbytes := le_bytesFor bits.length
  have hlength : (unpack bits.toVector.data).length = 8 * bytesFor bits.length := by
    rw [unpack_length, toVector_data_length]
  obtain rfl := setSlice_result hbits hset
  rw [List.length_take, splice_length (by rwa [hlength]), hlength]
  omega

/-- Each bit that is written comes from the value, and the others stay. -/
theorem setSlice_getElem? (hbits : bits.length < uint32Size)
    (hset : bits.setSlice startOffset value = .ok result) {i : Nat} {bit : Bool}
    (hbit : bits[i]? = some bit) :
    result[i]? = some bit ∨ ∃ written ∈ value, result[i]? = some written := by
  obtain ⟨hstart, hbuffer, hrange, hvalue⟩ := setSlice_within hbits hset
  have hi := (List.getElem?_eq_some_iff.mp hbit).1
  have hunpack : unpack bits.toVector.data =
      bits ++ List.replicate (8 * bytesFor bits.length - bits.length) false := unpack_pack bits
  have hlength : (unpack bits.toVector.data).length = 8 * bytesFor bits.length := by
    rw [unpack_length, toVector_data_length]
  obtain rfl := setSlice_result hbits hset
  rw [List.getElem?_take, if_pos hi, splice_getElem? (by rw [hlength]; exact hbuffer)]
  split
  · rename_i hwritten
    have hin : i - startOffset < value.length := by omega
    exact .inr ⟨value[i - startOffset], List.getElem_mem hin, List.getElem?_eq_getElem hin⟩
  · rw [hunpack, List.getElem?_append_left hi]
    exact .inl hbit

end Bits

end Mast
