import Mast.BinaryVector.SetSlice

/-!
# Which bytes an assignment reads and writes

`writeSlice` is defined exactly when its accesses stay inside of both buffers, and then writes what `writtenSlice` says. The loop over split bytes reads the byte after the source when the bits of the last source byte all go to one byte of the destination, unless they end there; and where a sum of 32 bits wraps, a table of masks is left.
-/

namespace Mast

open BitPacking

namespace BinaryVector

/-! ### When the accesses stay inside -/

section Accesses

variable {source data : List Byte} {dest srce : Nat}

theorem readByte_eq (hin : srce < source.length) :
    readByte source srce = .ok (source.getD srce 0) := by
  rw [readByte, List.getD_eq_getElem?_getD, List.getElem?_eq_getElem hin]
  rfl

theorem readByte_undefined (hout : source.length ≤ srce) :
    readByte source srce = .error .undefinedBehaviour := by
  rw [readByte, List.getElem?_eq_none hout]

theorem writeByte_eq (hin : dest < data.length) (f : Byte → Byte) :
    writeByte data dest f = .ok (data.modify dest f) :=
  if_pos hin

theorem writeByte_undefined (hout : data.length ≤ dest) (f : Byte → Byte) :
    writeByte data dest f = .error .undefinedBehaviour :=
  if_neg (by omega)

/-- The copy fails at the first byte that one of the buffers does not have. -/
theorem copyBytes_eq {count : Nat} (hsource : srce ≤ source.length) (hdata : dest ≤ data.length) :
    copyBytes source count dest srce data =
      if srce + count ≤ source.length ∧ dest + count ≤ data.length then
        .ok (copiedBytes (fun offset => source.getD offset 0) count dest srce data)
      else .error .undefinedBehaviour := by
  induction count generalizing dest srce data with
  | zero => rw [if_pos ⟨hsource, hdata⟩, copyBytes, copiedBytes]
  | succ count ih =>
    rw [copyBytes]
    by_cases hread : srce < source.length
    · by_cases hwrite : dest < data.length
      · have hnext : copyBytes source count (dest + 1) (srce + 1)
            (data.modify dest fun _ => source.getD srce 0) = _ :=
          ih hread (by rwa [List.length_modify])
        have hadd : ∀ start, start + 1 + count = start + (count + 1) := by omega
        rw [List.length_modify, hadd, hadd] at hnext
        simp only [readByte_eq hread, writeByte_eq hwrite, bind, Except.bind, hnext, copiedBytes]
      · rw [if_neg (by omega), readByte_eq hread]
        simp only [writeByte_undefined (show data.length ≤ dest by omega), bind, Except.bind]
    · rw [if_neg (by omega), readByte_undefined (by omega)]
      rfl

theorem mergeSource_eq (hin : srce + 1 < source.length) (boundaryOffset : Nat) :
    mergeSource source boundaryOffset srce =
      .ok (sourceByte (fun offset => source.getD offset 0) boundaryOffset srce) := by
  rw [mergeSource, readByte_eq (by omega), readByte_eq hin]
  rfl

theorem mergeSource_undefined (hout : source.length ≤ srce + 1) (boundaryOffset : Nat) :
    mergeSource source boundaryOffset srce = .error .undefinedBehaviour := by
  rw [mergeSource]
  by_cases hin : srce < source.length
  · rw [readByte_eq hin, readByte_undefined hout]
    rfl
  · rw [readByte_undefined (by omega)]
    rfl

/-- The bytes that the loop over split bytes writes. -/
def splitCount (count lastBits : Nat) : Nat := if lastBits = 0 then count else count + 1

/-- Each turn of the loop reads one byte further than the previous one. -/
theorem copySplitBytes_eq {count boundaryOffset lastBits : Nat} (hdata : dest ≤ data.length) :
    copySplitBytes source boundaryOffset lastBits count dest srce data =
      if splitCount count lastBits = 0 ∨ srce + splitCount count lastBits < source.length ∧
          dest + splitCount count lastBits ≤ data.length then
        .ok (splitBytes (fun offset => source.getD offset 0) boundaryOffset lastBits count dest
          srce data)
      else .error .undefinedBehaviour := by
  induction count generalizing dest srce data with
  | zero =>
    rw [copySplitBytes, splitBytes]
    by_cases hnone : lastBits = 0
    · have hcount : splitCount 0 lastBits = 0 := if_pos hnone
      rw [if_pos hnone, if_pos hnone, if_pos (.inl hcount)]
    · have hcount : splitCount 0 lastBits = 1 := if_neg hnone
      rw [if_neg hnone, if_neg hnone, hcount]
      by_cases hread : srce + 1 < source.length
      · rw [mergeSource_eq hread]
        by_cases hwrite : dest < data.length
        · rw [if_pos (.inr ⟨hread, hwrite⟩)]
          exact writeByte_eq hwrite _
        · rw [if_neg (by omega)]
          exact writeByte_undefined (by omega) _
      · rw [if_neg (by omega), mergeSource_undefined (by omega)]
        rfl
  | succ count ih =>
    have hcount : splitCount (count + 1) lastBits = splitCount count lastBits + 1 := by
      unfold splitCount
      split <;> rfl
    rw [copySplitBytes, splitBytes, hcount]
    by_cases hread : srce + 1 < source.length
    · rw [mergeSource_eq hread]
      by_cases hwrite : dest < data.length
      · simp only [writeByte_eq hwrite, bind, Except.bind]
        rw [ih (by rwa [List.length_modify]), List.length_modify]
        by_cases hinside : srce + (splitCount count lastBits + 1) < source.length ∧
            dest + (splitCount count lastBits + 1) ≤ data.length
        · rw [if_pos (by omega), if_pos (by omega)]
        · rw [if_neg (by omega), if_neg (by omega)]
      · simp only [writeByte_undefined (show data.length ≤ dest by omega), bind, Except.bind]
        rw [if_neg (by omega)]
    · rw [if_neg (by omega), mergeSource_undefined (by omega)]
      rfl

/-- The range is inside of the destination, the source has all bytes that are read, and the test for a part of one byte does not wrap. -/
structure AccessesInside (sourceBytes dataBytes startOffset bitsCount : Nat) : Prop where
  writes : startOffset + bitsCount ≤ 8 * dataBytes
  reads : bytesFor (startOffset % 8 + bitsCount) ≤ sourceBytes
  unwrapped : startOffset % 8 = 0 ∨ startOffset % 8 + bitsCount < uint32Size

theorem accessesInside_iff {sourceBytes dataBytes startOffset bitsCount : Nat} :
    AccessesInside sourceBytes dataBytes startOffset bitsCount ↔
      startOffset + bitsCount ≤ 8 * dataBytes ∧
        bytesFor (startOffset % 8 + bitsCount) ≤ sourceBytes ∧
          (startOffset % 8 = 0 ∨ startOffset % 8 + bitsCount < uint32Size) :=
  ⟨fun h => ⟨h.writes, h.reads, h.unwrapped⟩, fun ⟨h, h', h''⟩ => ⟨h, h', h''⟩⟩

instance (sourceBytes dataBytes startOffset bitsCount : Nat) :
    Decidable (AccessesInside sourceBytes dataBytes startOffset bitsCount) :=
  decidable_of_iff' _ accessesInside_iff

section Writes

variable {startOffset bitsCount : Nat} (hstart : startOffset < 8 * data.length)
include hstart

/-- The destination is aligned: whole bytes, then the first bits of one more. -/
theorem writeSlice_aligned (haligned : startOffset % 8 = 0) :
    writeSlice data startOffset bitsCount source =
      if AccessesInside source.length data.length startOffset bitsCount then
        .ok (writtenSlice data startOffset bitsCount fun offset => source.getD offset 0)
      else .error .undefinedBehaviour := by
  have hcopied : copyBytes source (bitsCount / 8) (startOffset / 8) 0 data = _ :=
    copyBytes_eq (Nat.zero_le _) (by omega)
  unfold writeSlice writtenSlice
  simp only [if_pos haligned, hcopied, accessesInside_iff, bytesFor, Nat.zero_add, bind]
  by_cases hwhole : bitsCount / 8 ≤ source.length ∧ startOffset / 8 + bitsCount / 8 ≤ data.length
  · rw [if_pos hwhole]
    simp only [Except.bind]
    by_cases hfull : bitsCount % 8 = 0
    · rw [if_pos hfull, if_pos hfull, if_pos (by omega)]
      rfl
    · rw [if_neg hfull, if_neg hfull]
      by_cases hread : bitsCount / 8 < source.length
      · rw [readByte_eq hread]
        by_cases hwrite : startOffset / 8 + bitsCount / 8 < data.length
        · rw [if_pos (by omega)]
          exact writeByte_eq (by rwa [copiedBytes_length]) _
        · rw [if_neg (by omega)]
          exact writeByte_undefined (by rw [copiedBytes_length]; omega) _
      · rw [readByte_undefined (by omega), if_neg (by omega)]
  · rw [if_neg hwhole, if_neg (by omega)]
    rfl

/-- The bits go to one byte of the destination, or so many of them are assigned that the test for that wraps. -/
theorem writeSlice_partial (haligned : startOffset % 8 ≠ 0)
    (hpart : (startOffset % 8 + bitsCount) % uint32Size < 8) :
    writeSlice data startOffset bitsCount source =
      if AccessesInside source.length data.length startOffset bitsCount then
        .ok (writtenSlice data startOffset bitsCount fun offset => source.getD offset 0)
      else .error .undefinedBehaviour := by
  unfold writeSlice writtenSlice
  simp only [if_neg haligned, if_pos hpart, accessesInside_iff, bytesFor, bind]
  by_cases hmany : 8 < bitsCount
  · have hwraps : ¬startOffset % 8 + bitsCount < uint32Size := by
      intro hbound
      rw [Nat.mod_eq_of_lt hbound] at hpart
      omega
    rw [if_pos hmany, if_neg (by omega)]
    rfl
  · have hinside : startOffset % 8 + bitsCount < 8 := by
      rwa [Nat.mod_eq_of_lt (by unfold uint32Size; omega)] at hpart
    have hwrite : startOffset / 8 < data.length := by omega
    rw [if_neg hmany, if_pos hinside]
    by_cases hread : 0 < source.length
    · rw [if_pos (by unfold uint32Size; omega)]
      simp only [readByte_eq hread, Except.bind]
      exact writeByte_eq hwrite _
    · rw [if_neg (by omega)]
      simp only [readByte_undefined (Nat.le_of_not_lt hread), Except.bind]

/-- Source bytes are split into bytes of the destination. -/
theorem writeSlice_split (hdata : 8 * data.length ≤ uint32Size) (haligned : startOffset % 8 ≠ 0)
    (hpart : ¬(startOffset % 8 + bitsCount) % uint32Size < 8) :
    writeSlice data startOffset bitsCount source =
      if AccessesInside source.length data.length startOffset bitsCount then
        .ok (writtenSlice data startOffset bitsCount fun offset => source.getD offset 0)
      else .error .undefinedBehaviour := by
  have hinside : ¬startOffset % 8 + bitsCount < 8 := by
    intro hinside
    rw [Nat.mod_eq_of_lt (by unfold uint32Size; omega)] at hpart
    omega
  have hwrite : startOffset / 8 < data.length := by omega
  unfold writeSlice writtenSlice
  simp only [if_neg haligned, if_neg hpart, if_neg hinside]
  by_cases hread : 0 < source.length
  · simp only [readByte_eq hread, writeByte_eq hwrite, bind, Except.bind]
    rw [copySplitBytes_eq (by rw [List.length_modify]; omega), List.length_modify]
    -- a range inside of the buffer whose sum wraps would be taken for a part of one byte
    have hunwrapped : startOffset + bitsCount ≤ 8 * data.length →
        startOffset % 8 + bitsCount < uint32Size := by
      intro hend
      by_contra hwraps
      have hsum : startOffset % 8 + bitsCount = uint32Size := by omega
      rw [hsum, Nat.mod_self] at hpart
      omega
    have hcount : splitCount ((bitsCount - (8 - startOffset % 8)) / 8)
        ((bitsCount - (8 - startOffset % 8)) % 8) + 1 = bytesFor (startOffset % 8 + bitsCount) := by
      unfold splitCount bytesFor
      split <;> omega
    have hbytes : bytesFor (startOffset % 8 + bitsCount) + startOffset / 8 ≤ data.length ↔
        startOffset + bitsCount ≤ 8 * data.length := by
      unfold bytesFor
      omega
    by_cases haccess : AccessesInside source.length data.length startOffset bitsCount
    · have hwrites := hbytes.mpr haccess.writes
      have hreads := haccess.reads
      rw [if_pos haccess, if_pos (by omega)]
    · rw [accessesInside_iff] at haccess
      have houtside : ¬(splitCount ((bitsCount - (8 - startOffset % 8)) / 8)
          ((bitsCount - (8 - startOffset % 8)) % 8) < source.length ∧
          startOffset + bitsCount ≤ 8 * data.length) := by
        rintro ⟨hreads, hwrites⟩
        exact haccess ⟨hwrites, by omega, .inr (hunwrapped hwrites)⟩
      rw [if_neg (by omega), if_neg (by rwa [accessesInside_iff])]
  · have haccess : ¬AccessesInside source.length data.length startOffset bitsCount := by
      intro haccess
      have hreads := haccess.reads
      unfold bytesFor at hreads
      omega
    rw [if_neg haccess, readByte_undefined (Nat.le_of_not_lt hread)]
    rfl

/-- `writeSlice` is defined exactly when its accesses stay inside. -/
theorem writeSlice_eq (hdata : 8 * data.length ≤ uint32Size) :
    writeSlice data startOffset bitsCount source =
      if AccessesInside source.length data.length startOffset bitsCount then
        .ok (writtenSlice data startOffset bitsCount fun offset => source.getD offset 0)
      else .error .undefinedBehaviour := by
  by_cases haligned : startOffset % 8 = 0
  · exact writeSlice_aligned hstart haligned
  · by_cases hpart : (startOffset % 8 + bitsCount) % uint32Size < 8
    · exact writeSlice_partial hstart haligned hpart
    · exact writeSlice_split hstart hdata haligned hpart

end Writes

end Accesses

/-! ### Assignments of a range -/

theorem ExactBytes.le_data {v : BinaryVector} (hexact : v.ExactBytes) :
    v.usedBits ≤ 8 * v.data.length := by
  rw [hexact]
  exact le_bytesFor _

theorem Stored.data_le {v : BinaryVector} (hv : v.Stored) : 8 * v.data.length ≤ uint32Size := by
  have hused := hv.usedBits_lt
  rw [hv.exactBytes, bytesFor]
  unfold uint32Size at *
  omega

private theorem isEmpty_eq_false {v : BinaryVector} (hexact : v.ExactBytes) {offset : Nat}
    (hoffset : offset < v.usedBits) : v.isEmpty = false := by
  have hbytes := hexact.le_data
  rw [isEmpty, List.isEmpty_eq_false_iff]
  exact List.ne_nil_of_length_pos (by omega)

/-- The upper bound of the check of an offset, in 32 bits. -/
private theorem lastOffset_eq {v : BinaryVector} (hpos : 0 < v.usedBits)
    (hused : v.usedBits < uint32Size) :
    (v.usedBits + (uint32Size - 1)) % uint32Size = v.usedBits - 1 := by
  have hsum : v.usedBits + (uint32Size - 1) = uint32Size + (v.usedBits - 1) := by omega
  rw [hsum, Nat.add_mod_left, Nat.mod_eq_of_lt (by omega)]

/-- An assignment that passes the checks is defined exactly when its accesses stay inside. -/
theorem setSliceImpl_eq {v : BinaryVector} (hv : v.Stored) {startOffset bitsCount : Nat}
    (hstart : startOffset < v.usedBits)
    (hrange : (startOffset + bitsCount) % uint32Size ≤ v.usedBits) (source : List Byte) :
    (setSliceImpl startOffset bitsCount (some source)).run v =
      if AccessesInside source.length v.data.length startOffset bitsCount then
        .ok () { v with
          data := writtenSlice v.data startOffset bitsCount fun offset => source.getD offset 0 }
      else .error .undefinedBehaviour v := by
  have hempty := isEmpty_eq_false hv.exactBytes hstart
  have hle := hv.exactBytes.le_data
  have hoffset : startOffset ≤ (v.usedBits + (uint32Size - 1)) % uint32Size := by
    rw [lastOffset_eq (by omega) hv.usedBits_lt]
    omega
  simp only [setSliceImpl, EStateM.run_bind, EStateM.run_get, check_run hempty, check_run hoffset,
    check_run hrange, writeSlice_eq (show startOffset < 8 * v.data.length by omega) hv.data_le]
  by_cases hinside : AccessesInside source.length v.data.length startOffset bitsCount
  · rw [if_pos hinside, if_pos hinside, orThrow_ok]
    rfl
  · rw [if_neg hinside, if_neg hinside]
    rfl

theorem setSliceImpl_rejects {v : BinaryVector} (hv : v.Stored) {startOffset bitsCount : Nat}
    {source : Option (List Byte)}
    (hrejects : source = none ∨ v.usedBits ≤ startOffset ∨
      v.usedBits < (startOffset + bitsCount) % uint32Size) :
    Rejects (setSliceImpl startOffset bitsCount source) v := by
  cases source with
  | none => exact ⟨_, by simp, rfl⟩
  | some source =>
    refine Rejects.of_run (EStateM.run_get v) ?_
    by_cases hempty : v.isEmpty = false
    · have hpos : 0 < v.usedBits := by
        rw [isEmpty, List.isEmpty_eq_false_iff, ← List.length_pos_iff, hv.exactBytes,
          bytesFor] at hempty
        omega
      refine Rejects.of_run (check_run hempty _ v) ?_
      have hlast := lastOffset_eq hpos hv.usedBits_lt
      by_cases hstart : startOffset < v.usedBits
      · refine Rejects.of_run (check_run (by omega) _ v) ?_
        have hout : v.usedBits < (startOffset + bitsCount) % uint32Size := by
          rcases hrejects with hnone | hstart' | hout
          · simp at hnone
          · omega
          · exact hout
        exact (check_rejects (by omega) (by simp) v).bind _
      · exact (check_rejects (by omega) (by simp) v).bind _
    · exact (check_rejects hempty (by simp) v).bind _

/-! ### Assignments of a vector -/

theorem sourceBits_data {v : BinaryVector} (hexact : v.ExactBytes) (behind : List Byte) :
    sourceBits (fun offset => (v.data ++ behind).getD offset 0) 0 v.usedBits = v.bits := by
  have hle := hexact.le_data
  apply List.ext_getElem
  · rw [sourceBits_length, hexact.bits_length]
  · intro i hleft hright
    rw [sourceBits_length] at hleft
    have hbyte : (v.data ++ behind).getD (i / 8) 0 = v.data.getD (i / 8) 0 := by
      rw [List.getD_eq_getElem?_getD, List.getElem?_append_left (by omega),
        List.getD_eq_getElem?_getD]
    simp only [sourceBits, List.getElem_map, List.getElem_range, bits, List.getElem_take,
      unpack_getElem, Nat.zero_add, hbyte]

theorem dataLeftAligned_eq {v : BinaryVector} (hexact : v.ExactBytes) (hpos : 0 < v.usedBits)
    (behind : List Byte) : v.dataLeftAligned behind = some (v.data ++ behind) := by
  have hle := hexact.le_data
  have hne : v.data ≠ [] := by
    apply List.ne_nil_of_length_pos
    omega
  rw [dataLeftAligned, if_neg hne]

theorem dataLeftAligned_eq_none {v : BinaryVector} (hexact : v.ExactBytes) (hnone : v.usedBits = 0)
    (behind : List Byte) : v.dataLeftAligned behind = none := by
  have hdata : v.data = [] := by
    rw [← List.length_eq_zero_iff, hexact, hnone]
    rfl
  rw [dataLeftAligned, if_pos hdata]

/-- The bits of the last source byte stay in one destination byte: no byte behind the source is read. -/
def StaysInByte (startOffset bitsCount : Nat) : Prop := startOffset % 8 + (bitsCount - 1) % 8 < 8

instance (startOffset bitsCount : Nat) : Decidable (StaysInByte startOffset bitsCount) :=
  inferInstanceAs (Decidable (_ < _))

/-- A vector has all bytes that are read, except perhaps the one behind its last byte. -/
theorem reads_iff {startOffset bitsCount : Nat} (hpos : 0 < bitsCount) (behind : List Byte) :
    bytesFor (startOffset % 8 + bitsCount) ≤ bytesFor bitsCount + behind.length ↔
      behind ≠ [] ∨ StaysInByte startOffset bitsCount := by
  unfold StaysInByte bytesFor
  rw [← List.length_pos_iff]
  omega

section Assignments

variable {v w : BinaryVector} {startOffset : Nat} {behind : List Byte} (hv : v.Stored)
  (hw : w.ExactBytes)
include hv hw

theorem setSlice_rejects
    (hrejects : w.usedBits = 0 ∨ v.usedBits ≤ startOffset ∨
      v.usedBits < (startOffset + w.usedBits) % uint32Size) :
    Rejects (setSlice behind startOffset w) v :=
  setSliceImpl_rejects hv (hrejects.imp_left fun hnone => dataLeftAligned_eq_none hw hnone behind)

variable (hpos : 0 < w.usedBits)
include hpos

/-- An assignment that passes the checks: inside of the buffer, and where the sums do not wrap, only the byte behind the source decides. -/
theorem setSlice_eq (hstart : startOffset < v.usedBits)
    (hrange : (startOffset + w.usedBits) % uint32Size ≤ v.usedBits) :
    (setSlice behind startOffset w).run v =
      if startOffset + w.usedBits ≤ 8 * v.data.length ∧
          (behind ≠ [] ∨ StaysInByte startOffset w.usedBits) ∧
            (startOffset % 8 = 0 ∨ startOffset % 8 + w.usedBits < uint32Size) then
        .ok () { v with
          data := writtenSlice v.data startOffset w.usedBits
            fun offset => (w.data ++ behind).getD offset 0 }
      else .error .undefinedBehaviour v := by
  have hreads : bytesFor (startOffset % 8 + w.usedBits) ≤ (w.data ++ behind).length ↔
      behind ≠ [] ∨ StaysInByte startOffset w.usedBits := by
    rw [List.length_append, hw]
    exact reads_iff hpos behind
  rw [setSlice, dataLeftAligned_eq hw hpos, setSliceImpl_eq hv hstart hrange]
  simp only [accessesInside_iff, hreads]

variable (hrange : startOffset + w.usedBits ≤ v.usedBits)
include hrange

/-- An assignment inside of the vector fails only when it reads the byte behind the source and there is none. -/
theorem setSlice_inside :
    (setSlice behind startOffset w).run v =
      if behind ≠ [] ∨ StaysInByte startOffset w.usedBits then
        .ok () { v with
          data := writtenSlice v.data startOffset w.usedBits
            fun offset => (w.data ++ behind).getD offset 0 }
      else .error .undefinedBehaviour v := by
  have hle := hv.exactBytes.le_data
  have hused := hv.usedBits_lt
  have hsum : (startOffset + w.usedBits) % uint32Size ≤ v.usedBits := by
    rwa [Nat.mod_eq_of_lt (by omega)]
  have hbuffer : startOffset + w.usedBits ≤ 8 * v.data.length := by omega
  have hunwrapped : startOffset % 8 = 0 ∨ startOffset % 8 + w.usedBits < uint32Size := by omega
  rw [setSlice_eq hv hw hpos (by omega) hsum]
  simp only [hbuffer, hunwrapped, true_and, and_true]

theorem setSlice_undefined (hspills : ¬StaysInByte startOffset w.usedBits) :
    (setSlice [] startOffset w).run v = .error .undefinedBehaviour v := by
  rw [setSlice_inside hv hw hpos hrange, if_neg (by simpa using hspills)]

variable (behind) in
theorem setSlice_bits (hreads : behind ≠ [] ∨ StaysInByte startOffset w.usedBits) :
    ∃ v', (setSlice behind startOffset w).run v = .ok () v' ∧ v'.Stored ∧
      v'.usedBits = v.usedBits ∧ v'.bits = splice v.bits startOffset w.bits := by
  have hbuffer := hv.exactBytes.le_data
  have hlength := hw.bits_length
  have hwritten := unpack_writtenSlice (show startOffset + w.usedBits ≤ 8 * v.data.length by omega)
    fun offset => (w.data ++ behind).getD offset 0
  rw [sourceBits_data hw] at hwritten
  have hfits : startOffset + w.bits.length ≤ (unpack v.data).length := by
    rw [unpack_length]
    omega
  have hsize := congrArg List.length hwritten
  rw [splice_length hfits, unpack_length, unpack_length] at hsize
  refine ⟨⟨writtenSlice v.data startOffset w.usedBits fun offset =>
    (w.data ++ behind).getD offset 0, v.usedBits, v.sizeProperty⟩, ?_, ⟨?_, hv.usedBits_lt⟩, rfl, ?_⟩
  · rw [setSlice_inside hv hw hpos hrange, if_pos hreads]
  · have hsame : (writtenSlice v.data startOffset w.usedBits fun offset =>
        (w.data ++ behind).getD offset 0).length = v.data.length := by omega
    exact hsame.trans hv.exactBytes
  · have hcut : (splice (unpack v.data) startOffset w.bits).take v.usedBits =
        splice v.bits startOffset w.bits :=
      take_splice (by omega) (by rwa [unpack_length])
    rw [← hwritten] at hcut
    exact hcut

end Assignments

theorem setSlice_ofBits {l : List Bool} {p : SizeProperty} {startOffset : Nat}
    {behind : List Byte} {value : BinaryVector} (hvalue : value.ExactBytes)
    (hpos : 0 < value.usedBits) (hrange : startOffset + value.usedBits ≤ l.length)
    (hused : l.length < uint32Size) (hreads : behind ≠ [] ∨ StaysInByte startOffset value.usedBits) :
    (setSlice behind startOffset value).run (ofBits l p) =
      .ok () (ofBits (splice l startOffset value.bits) p) := by
  have hbytes := le_bytesFor l.length
  have hfew := bytesFor_lt l.length
  have hlength := hvalue.bits_length
  have hend : startOffset + value.bits.length ≤ l.length := by omega
  have hdata : (writtenSlice (pack l) startOffset value.usedBits fun offset =>
      (value.data ++ behind).getD offset 0) = pack (splice l startOffset value.bits) := by
    refine eq_pack (8 * bytesFor l.length - l.length) ?_ (by omega)
    rw [unpack_writtenSlice (by rw [pack_length]; omega), sourceBits_data hvalue, unpack_pack]
    simp only [splice]
    rw [List.take_append_of_le_length (by omega), List.drop_append_of_le_length hend]
    simp only [List.append_assoc]
  rw [setSlice_inside ⟨(ofBits_wellFormed l p).exactBytes, hused⟩ hvalue hpos hrange, if_pos hreads,
    ofBits_data, hdata, ofBits.eq_1 (splice _ _ _), splice_length hend]
  rfl

/-! ### Assignments of an integer -/

theorem integerVector_eq {width : UIntWidth} (count : Nat) (hpos : 0 < count)
    (hbound : count < uint32Size) (value : BitVec width.bits) :
    ∃ added : List Bool, added.length = count ∧
      integerVector count width value = .ok (ofBits added .notFixed) := by
  have hwidth := width.bits_pos
  by_cases hlarge : count > width.bits
  · have hzeros := appendBits_ofBits (l := []) false (count - width.bits) (p := .notFixed) (.inl rfl)
      (by decide) (by rw [List.length_nil]; omega)
    have hmin : min count width.bits = width.bits := by omega
    obtain ⟨added, hlength, hrun⟩ := appendUInt_ofBits (p := .notFixed)
      (l := List.replicate (count - width.bits) false) hwidth (Nat.le_refl _) (by decide)
      (by rw [List.length_replicate]; omega) value .right
    refine ⟨List.replicate (count - width.bits) false ++ added, ?_, ?_⟩
    · rw [List.length_append, List.length_replicate, hlength]
      omega
    · simp only [integerVector, build, if_pos hlarge, EStateM.run_bind, empty_eq_ofBits, hzeros, List.nil_append,
        hmin, hrun]
  · have hmin : min count width.bits = count := by omega
    obtain ⟨added, hlength, hrun⟩ := appendUInt_ofBits (p := .notFixed)
      (l := []) hpos (by omega) (by decide) (by rw [List.length_nil]; omega) value .right
    refine ⟨added, hlength, ?_⟩
    simp only [integerVector, build, if_neg hlarge, empty_eq_ofBits, hmin, hrun, List.nil_append]

theorem IndexedRange.width_cases (range : IndexedRange) :
    (∃ fault, fault ≠ .undefinedBehaviour ∧ range.width = .error fault) ∨
      ∃ count, 0 < count ∧ count < uint32Size ∧ range.width = .ok count ∧
        (range.left ≤ range.right → range.right < uint32Size →
          count = range.right - range.left + 1) := by
  by_cases hzero : (1 + if range.left > range.right then range.left - range.right
      else range.right - range.left) % uint32Size = 0
  · refine .inl ⟨_, ?_, by simp only [IndexedRange.width, if_pos hzero]; rfl⟩
    simp
  · refine .inr ⟨_, Nat.pos_of_ne_zero hzero, Nat.mod_lt _ (by decide),
      by simp only [IndexedRange.width, if_neg hzero], ?_⟩
    intro hle hbound
    rw [if_neg (by omega)] at hzero ⊢
    have hlt : 1 + (range.right - range.left) < uint32Size := by
      by_contra hge
      have heq : 1 + (range.right - range.left) = uint32Size := by omega
      rw [heq, Nat.mod_self] at hzero
      exact hzero rfl
    rw [Nat.mod_eq_of_lt hlt]
    omega

theorem IndexedRange.width_pos {range : IndexedRange} {count : Nat}
    (hwidth : range.width = .ok count) : 0 < count := by
  rcases range.width_cases with ⟨fault, -, herror⟩ | ⟨count', hpos, -, hok, -⟩
  · rw [herror] at hwidth
    cases hwidth
  · rw [hok] at hwidth
    exact Except.ok.inj hwidth ▸ hpos

/-- What an assignment of an integer asks for: a range inside of the vector, not reversed, that the value fits into. -/
structure RangeAccepted (v : BinaryVector) (range : IndexedRange) (width : UIntWidth)
    (value : BitVec width.bits) : Prop where
  ordered : range.left ≤ range.right
  inside : range.right < v.usedBits
  fits : range.right - range.left + 1 < width.bits →
    value.toNat ≤ 2 ^ (range.right - range.left + 1) - 1

section Integers

variable {v : BinaryVector} {range : IndexedRange} {width : UIntWidth} {value : BitVec width.bits}
  {behind : List Byte} (hv : v.Stored)
include hv

variable (behind) in
theorem setSliceT_eq (haccepted : RangeAccepted v range width value) :
    ∃ w : BinaryVector, w.ExactBytes ∧ w.usedBits = range.right - range.left + 1 ∧
      (setSliceT behind range width value).run v = (setSlice behind range.left w).run v := by
  obtain ⟨hordered, hinside, hfits⟩ := haccepted
  have hused := hv.usedBits_lt
  have hwidth : range.width = .ok (range.right - range.left + 1) := by
    rcases range.width_cases with ⟨fault, hfault, hwidth⟩ | ⟨count, -, -, hwidth, hcount⟩
    · simp only [IndexedRange.width, if_neg (show ¬range.left > range.right by omega)] at hwidth
      rw [if_neg (by rw [Nat.mod_eq_of_lt (by omega)]; omega)] at hwidth
      cases hwidth
    · rw [hwidth, hcount hordered (by omega)]
  have hempty : v.isEmpty = false := isEmpty_eq_false hv.exactBytes hinside
  have hsize : range.right - range.left + 1 ≤ v.usedBits := by omega
  have horder : range.isSingleBit ∨ range.increasesTowardRight := by
    simp only [IndexedRange.isSingleBit, IndexedRange.increasesTowardRight, beq_iff_eq,
      decide_eq_true_eq]
    omega
  obtain ⟨added, hlength, hbuild⟩ := integerVector_eq (range.right - range.left + 1)
    (by omega) (by omega) value
  refine ⟨ofBits added .notFixed, (ofBits_wellFormed _ _).exactBytes, hlength, ?_⟩
  simp only [setSliceT, setRange, EStateM.run_bind, EStateM.run_get, check_run hempty, hwidth,
    orThrow_ok, check_run hsize, check_run hinside, check_run horder, check_run hfits, hbuild,
    setSlice, ofBits_usedBits, hlength]

theorem setSliceT_rejects (hrefused : ¬RangeAccepted v range width value) :
    Rejects (setSliceT behind range width value) v := by
  refine Rejects.of_run (EStateM.run_get v) ?_
  by_cases hempty : v.isEmpty = false
  swap
  · exact (check_rejects hempty (by simp) v).bind _
  refine Rejects.of_run (check_run hempty _ v) ?_
  rcases range.width_cases with ⟨fault, hfault, hwidth⟩ | ⟨count, -, -, hwidth, hcount⟩
  · rw [hwidth]
    exact (orThrow_rejects hfault v).bind _
  rw [hwidth]
  refine Rejects.of_run (orThrow_ok count v) (Rejects.of_run (EStateM.run_get v) ?_)
  by_cases hsize : count ≤ v.usedBits
  swap
  · exact (check_rejects hsize (by simp) v).bind _
  refine Rejects.of_run (check_run hsize _ v) ?_
  by_cases hinside : range.right < v.usedBits
  swap
  · exact (check_rejects hinside (by simp) v).bind _
  refine Rejects.of_run (check_run hinside _ v) ?_
  by_cases horder : range.isSingleBit ∨ range.increasesTowardRight
  swap
  · exact (check_rejects horder (by simp) v).bind _
  refine Rejects.of_run (check_run horder _ v) ?_
  have hordered : range.left ≤ range.right := by
    simp only [IndexedRange.isSingleBit, IndexedRange.increasesTowardRight, beq_iff_eq,
      decide_eq_true_eq] at horder
    omega
  have hused := hv.usedBits_lt
  have hvalue : ¬(count < width.bits → value.toNat ≤ 2 ^ count - 1) := by
    intro hfits
    rw [hcount hordered (by omega)] at hfits
    exact hrefused ⟨hordered, hinside, hfits⟩
  exact (check_rejects hvalue (by simp) v).bind _

end Integers

end BinaryVector

end Mast
