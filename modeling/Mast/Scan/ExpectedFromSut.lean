import Mast.Scan.RegisterSlices
import Mast.Scan.SelectorTables

/-!
# Reads through a virtual register

A read sets what the registers of a virtual register should receive, and which bits of it to compare. Both stay in the registers until a later read replaces them: without a mask only the expected bits are set, so that the register goes on comparing with the mask it has.
-/

namespace Mast

open BinaryVector (IndexedRange)
open Outcome

namespace Register

/-- `SetExpectedFromSut(sequence)`, which leaves the don't care mask as it is. -/
def setExpectedSequence (r : Register) (sequence : Bits) : Except Fault Register :=
  if h : r.Fits sequence then
    .ok { r with expectedFromSut := sequence, expectedFromSut_length := h.length }
  else
    .error (r.sizeFault sequence)

/-- The don't care mask that an update starts from; a register without mask gets one of zeros. -/
def validDontCareMask (r : Register) : Except Fault Bits :=
  if r.dontCareMask = [] then Bits.filled r.bitsCount 0x00 else .ok r.dontCareMask

/-- `Reset`, but for the reset value. -/
def reset (r : Register) : Register :=
  { r.resetPending with mismatches := 0, mustCheckExpected := false, dontCareMask := [] }

end Register

namespace VirtualRegister

/-- `SetView` of the expected sequence: the update of one register. -/
def updateExpected (sequence : Bits) (slice : RegisterSlice) (valueRange : IndexedRange)
    (s : SystemModel) : Except Fault SystemModel := do
  let reg := s.registers slice.reg
  let slicedValue ← getSlice valueRange reg.bitsOrdering sequence
  let regValue ← setSlice slice.range reg.bitsOrdering reg.expectedFromSut slicedValue
  let reg ← reg.setExpectedSequence regValue
  return s.setRegister slice.reg reg

def updateExpectedAndMask (sequence dontCareMask : Bits) (slice : RegisterSlice)
    (valueRange : IndexedRange) (s : SystemModel) : Except Fault SystemModel := do
  let reg := s.registers slice.reg
  let regMask ← reg.validDontCareMask
  let slicedExpected ← getSlice valueRange reg.bitsOrdering sequence
  let slicedMask ← getSlice valueRange reg.bitsOrdering dontCareMask
  let regExpected ← setSlice slice.range reg.bitsOrdering reg.expectedFromSut slicedExpected
  let regMask ← setSlice slice.range reg.bitsOrdering regMask slicedMask
  let reg ← reg.setExpectedFromSut regExpected regMask
  return s.setRegister slice.reg reg

/-- `VirtualRegister::SetExpectedFromSut`. -/
def setExpectedFromSut (v : VirtualRegister) (sequence dontCareMask : Bits) (s : SystemModel) :
    Except Fault SystemModel :=
  if dontCareMask = [] then updateRegisters (updateExpected sequence) v s
  else if dontCareMask.length ≠ sequence.length then
    .error (.invalidArgument "Don't care mask must have same size as Register")
  else updateRegisters (updateExpectedAndMask sequence dontCareMask) v s

end VirtualRegister

/-! ### Comparing with a mask -/

def Cares (dontCareMask : Bits) (i : Nat) : Prop := dontCareMask = [] ∨ dontCareMask[i]? = some true

instance (dontCareMask : Bits) (i : Nat) : Decidable (Cares dontCareMask i) :=
  inferInstanceAs (Decidable (_ ∨ _))

theorem Bits.compareEqualTo_eq {bits rhs dontCareMask : Bits} (hrhs : rhs.length = bits.length)
    (hmask : dontCareMask = [] ∨ dontCareMask.length = bits.length) :
    ∃ same, bits.compareEqualTo rhs dontCareMask = .ok same ∧
      (same = true ↔ ∀ i, Cares dontCareMask i → bits[i]? = rhs[i]?) := by
  unfold compareEqualTo
  by_cases hnone : dontCareMask = []
  · rw [if_pos hnone]
    refine ⟨_, rfl, ?_⟩
    rw [beq_iff_eq]
    constructor
    · intro hsame i _
      rw [hsame]
    · intro hsame
      exact List.ext_getElem? fun i => hsame i (.inl hnone)
  · have hlength := hmask.resolve_left hnone
    have hpos : 0 < bits.length := hlength ▸ List.length_pos_of_ne_nil hnone
    rw [if_neg hnone, if_neg (by omega), if_neg (by omega), if_neg (by omega)]
    refine ⟨_, rfl, ?_⟩
    rw [List.all_eq_true]
    constructor
    · intro hall i hcares
      have hcared := hcares.resolve_left hnone
      have hi : i < dontCareMask.length := (List.getElem?_eq_some_iff.mp hcared).1
      have hbits : i < bits.length := by omega
      have hrhs' : i < rhs.length := by omega
      have hmem := hall ((bits[i] ^^ rhs[i]) && true) (List.mem_iff_getElem?.mpr ⟨i, by
        simp [List.getElem?_zipWith, List.getElem?_eq_getElem hbits,
          List.getElem?_eq_getElem hrhs', hcared]⟩)
      rw [List.getElem?_eq_getElem hbits, List.getElem?_eq_getElem hrhs']
      simpa using hmem
    · intro hsame different hdifferent
      obtain ⟨i, hi⟩ := List.mem_iff_getElem?.mp hdifferent
      obtain ⟨difference, care, hdifference, hcare, rfl⟩ := List.getElem?_zipWith_eq_some.mp hi
      obtain ⟨a, b, ha, hb, rfl⟩ := List.getElem?_zipWith_eq_some.mp hdifference
      cases care with
      | false => simp
      | true =>
        have hab := hsame i (.inr hcare)
        rw [ha, hb] at hab
        simp [Option.some.inj hab]

namespace Register

variable {r : Register} {width : Nat} {received : Bits}

/-- The register holds what reads of the given width need. A register is constructed with a vector of zeros of its width. -/
structure Reads (r : Register) (width : Nat) : Prop where
  bitsCount : r.bitsCount = width
  expected : r.expectedFromSut.length = width
  mask : r.dontCareMask = [] ∨ r.dontCareMask.length = width
  fits : ∀ sequence : Bits, sequence.length = width → r.Fits sequence
  vectors : width + 7 < uint32Size

theorem Reads.setExpectedSequence (hr : r.Reads width) {sequence : Bits}
    (hsequence : sequence.length = width) :
    ∃ r', r.setExpectedSequence sequence = .ok r' ∧ r'.Reads width ∧
      r'.bitsOrdering = r.bitsOrdering ∧ r'.expectedFromSut = sequence ∧
      r'.dontCareMask = r.dontCareMask ∧ r'.mismatches = r.mismatches := by
  rw [Register.setExpectedSequence, dif_pos (hr.fits sequence hsequence)]
  exact ⟨_, rfl, ⟨hr.bitsCount, hsequence, hr.mask, hr.fits, hr.vectors⟩, rfl, rfl, rfl, rfl⟩

theorem Reads.setExpectedFromSut (hr : r.Reads width) {sequence dontCareMask : Bits}
    (hsequence : sequence.length = width)
    (hmask : dontCareMask = [] ∨ dontCareMask.length = width) :
    ∃ r', r.setExpectedFromSut sequence dontCareMask = .ok r' ∧ r'.Reads width ∧
      r'.bitsOrdering = r.bitsOrdering ∧ r'.expectedFromSut = sequence ∧
      r'.dontCareMask = dontCareMask ∧ r'.mismatches = r.mismatches := by
  have hsizes : ¬(dontCareMask ≠ [] ∧ dontCareMask.length ≠ sequence.length) := by
    rw [hsequence]
    exact fun h => h.2 (hmask.resolve_left h.1)
  rw [Register.setExpectedFromSut, if_neg hsizes, dif_pos (hr.fits sequence hsequence)]
  exact ⟨_, rfl, ⟨hr.bitsCount, hsequence, hmask, hr.fits, hr.vectors⟩, rfl, rfl, rfl, rfl⟩

/-- A checked register counts a mismatch when a bit that its mask cares for is not as expected. -/
theorem Reads.setFromSut (hr : r.Reads width) (hreceived : received.length = width) :
    ∃ r', (r.setCheckExpected true).setFromSut received = .ok r' ∧
      ((∃ i, Cares r.dontCareMask i ∧ received[i]? ≠ r.expectedFromSut[i]?) →
        r'.mismatches = (r.mismatches + 1) % uint32Size) ∧
      ((¬∃ i, Cares r.dontCareMask i ∧ received[i]? ≠ r.expectedFromSut[i]?) →
        r'.mismatches = r.mismatches) := by
  obtain ⟨same, hcompare, hsame⟩ := Bits.compareEqualTo_eq (hr.expected.trans hreceived.symm)
    (hr.mask.imp_right fun h => h.trans hreceived.symm)
  have hdiffers : (∃ i, Cares r.dontCareMask i ∧ received[i]? ≠ r.expectedFromSut[i]?) ↔
      same = false := by
    rw [← Bool.not_eq_true, hsame]
    push Not
    rfl
  have hmismatch : (if (r.setCheckExpected true).mustCheckExpected then
      (received.compareEqualTo (r.setCheckExpected true).expectedFromSut
        (r.setCheckExpected true).dontCareMask).map (!·) else .ok false) =
      (.ok (!same) : Except Fault Bool) := by
    change (received.compareEqualTo r.expectedFromSut r.dontCareMask).map (!·) = _
    rw [hcompare]
    rfl
  have hfits : (r.setCheckExpected true).Fits received := hr.fits received hreceived
  rw [hdiffers]
  simp only [Register.setFromSut, hmismatch, dif_pos hfits]
  refine ⟨_, rfl, fun hdifferent => ?_, fun hequal => ?_⟩
  · simp [hdifferent, setCheckExpected]
  · simp [hequal, setCheckExpected]

end Register

namespace VirtualRegister

/-- The slices are disjoint, lie within registers that can be read and count their bits as these do. -/
structure Proxies (v : VirtualRegister) (s : SystemModel) (ordering : BitsOrdering)
    (bitsCount : Nat → Nat) : Prop where
  some : v ≠ []
  numbered : ∀ slice ∈ v, (s.registers slice.reg).bitsOrdering = ordering
  reads : ∀ slice ∈ v, (s.registers slice.reg).Reads (bitsCount slice.reg)
  within : ∀ slice ∈ v, slice.range.Within ordering (bitsCount slice.reg)
  disjoint : (v.namedBits ordering bitsCount).Nodup

def expectedOf (s : SystemModel) (reg : Nat) : Bits := (s.registers reg).expectedFromSut

/-- The masks that a read with a mask starts from. -/
def maskOf (bitsCount : Nat → Nat) (s : SystemModel) (reg : Nat) : Bits :=
  if (s.registers reg).dontCareMask = [] then Bits.zeros (bitsCount reg)
  else (s.registers reg).dontCareMask

section Updates

variable {v : VirtualRegister} {s s' : SystemModel} {ordering : BitsOrdering}
  {bitsCount : Nat → Nat} {sequence dontCareMask : Bits} {slice : RegisterSlice} {offset : Nat}

theorem Proxies.setRegister (hv : v.Proxies s ordering bitsCount) {reg : Nat} {r : Register}
    (hordering : r.bitsOrdering = (s.registers reg).bitsOrdering)
    (hreads : r.Reads (bitsCount reg)) : v.Proxies (s.setRegister reg r) ordering bitsCount where
  some := hv.some
  numbered other hother := by
    by_cases hreg : other.reg = reg
    · rw [hreg, SystemModel.setRegister_self, hordering, ← hreg]
      exact hv.numbered other hother
    · rw [SystemModel.setRegister_other _ _ hreg]
      exact hv.numbered other hother
  reads other hother := by
    by_cases hreg : other.reg = reg
    · rw [hreg, SystemModel.setRegister_self]
      exact hreads
    · rw [SystemModel.setRegister_other _ _ hreg]
      exact hv.reads other hother
  within := hv.within
  disjoint := hv.disjoint

theorem Proxies.width (hv : v.Proxies s ordering bitsCount) (hslice : slice ∈ v) :
    slice.range.width = .ok slice.range.count := by
  have hvectors := (hv.reads slice hslice).vectors
  exact (hv.within slice hslice).width (by omega)

theorem setSlice_reads {bits value : Bits} {range : IndexedRange} {count : Nat}
    (hbits : bits.length = count) (hrange : range.Within ordering count)
    (hcount : count + 7 < uint32Size) (hvalue : value.length = range.count) :
    setSlice range ordering bits value =
      .ok (BitPacking.splice bits (range.offset ordering count) value) := by
  subst hbits
  exact setSlice_within hrange (by omega) hvalue

/-- A field that a register keeps is kept in the state. -/
theorem setRegister_field {α : Type} {field : Register → α} {reg : Nat} {r : Register}
    (hr : field r = field (s.registers reg)) :
    (fun other => field ((s.setRegister reg r).registers other)) =
      fun other => field (s.registers other) := by
  funext other
  by_cases hother : other = reg
  · rw [hother, SystemModel.setRegister_self, hr]
  · rw [SystemModel.setRegister_other _ _ hother]

theorem updateExpected_step (hv : v.Proxies s ordering bitsCount) (hslice : slice ∈ v)
    (hin : offset + slice.range.count ≤ sequence.length) (hsize : sequence.length < uint32Size) :
    ∃ s', updateExpected sequence slice
          (valueRange ordering sequence.length offset slice.range.count) s = .ok s' ∧
      v.Proxies s' ordering bitsCount ∧
      Overwrites expectedOf ordering bitsCount sequence slice offset s s' ∧
      (fun reg => (s'.registers reg).dontCareMask) = (fun reg => (s.registers reg).dontCareMask) ∧
      (fun reg => (s'.registers reg).mismatches) = fun reg => (s.registers reg).mismatches := by
  have hreads := hv.reads slice hslice
  have hwithin := hv.within slice hslice
  have hvectors := hreads.vectors
  have hcount := hwithin.offset_count
  have hvalue : getSlice (valueRange ordering sequence.length offset slice.range.count) ordering
      sequence = .ok ((sequence.drop offset).take slice.range.count) :=
    valueRange_slice IndexedRange.count_pos hin hsize
  have hchunk : ((sequence.drop offset).take slice.range.count).length = slice.range.count := by
    rw [List.length_take, List.length_drop]
    omega
  have hset := setSlice_reads hreads.expected hwithin hvectors hchunk
  have hlength : (BitPacking.splice (s.registers slice.reg).expectedFromSut
      (slice.range.offset ordering (bitsCount slice.reg))
      ((sequence.drop offset).take slice.range.count)).length = bitsCount slice.reg := by
    have hexpected := hreads.expected
    rw [BitPacking.splice_length (by omega), hexpected]
  obtain ⟨r', hr', hreads', hordering, hexpected, hmask, hmismatches⟩ :=
    hreads.setExpectedSequence hlength
  refine ⟨s.setRegister slice.reg r', ?_, hv.setRegister hordering hreads', ⟨?_, ?_⟩,
    setRegister_field hmask, setRegister_field hmismatches⟩
  · simp only [updateExpected, hv.numbered slice hslice, hvalue, bind, Except.bind]
    rw [hset]
    simp only [hr', pure, Except.pure]
  · rw [expectedOf, SystemModel.setRegister_self, hexpected]
    rfl
  · intro other hother
    rw [expectedOf, SystemModel.setRegister_other _ _ hother]
    rfl

theorem updateExpectedAndMask_step (hv : v.Proxies s ordering bitsCount) (hslice : slice ∈ v)
    (hin : offset + slice.range.count ≤ sequence.length) (hsize : sequence.length < uint32Size)
    (hmask : dontCareMask.length = sequence.length) :
    ∃ s', updateExpectedAndMask sequence dontCareMask slice
          (valueRange ordering sequence.length offset slice.range.count) s = .ok s' ∧
      v.Proxies s' ordering bitsCount ∧
      Overwrites expectedOf ordering bitsCount sequence slice offset s s' ∧
      Overwrites (maskOf bitsCount) ordering bitsCount dontCareMask slice offset s s' ∧
      (∀ reg, reg = slice.reg ∨ (s.registers reg).dontCareMask ≠ [] →
        (s'.registers reg).dontCareMask ≠ []) ∧
      (fun reg => (s'.registers reg).mismatches) = fun reg => (s.registers reg).mismatches := by
  have hreads := hv.reads slice hslice
  have hwithin := hv.within slice hslice
  have hvectors := hreads.vectors
  have hcount := hwithin.offset_count
  have hpos := @IndexedRange.count_pos slice.range
  have hvalue : getSlice (valueRange ordering sequence.length offset slice.range.count) ordering
      sequence = .ok ((sequence.drop offset).take slice.range.count) :=
    valueRange_slice hpos hin hsize
  have hmaskValue : getSlice (valueRange ordering sequence.length offset slice.range.count) ordering
      dontCareMask = .ok ((dontCareMask.drop offset).take slice.range.count) := by
    rw [← hmask] at hin hsize ⊢
    exact valueRange_slice hpos hin hsize
  have hchunk : ((sequence.drop offset).take slice.range.count).length = slice.range.count := by
    rw [List.length_take, List.length_drop]
    omega
  have hmaskChunk : ((dontCareMask.drop offset).take slice.range.count).length =
      slice.range.count := by
    rw [List.length_take, List.length_drop]
    omega
  have hregMask : (s.registers slice.reg).validDontCareMask =
      .ok (maskOf bitsCount s slice.reg) := by
    rw [Register.validDontCareMask, maskOf, hreads.bitsCount, Bits.filled_zeros hvectors]
    split <;> rfl
  have hregMaskLength : (maskOf bitsCount s slice.reg).length = bitsCount slice.reg := by
    rw [maskOf]
    split
    · exact Bits.zeros_length _
    · exact hreads.mask.resolve_left ‹_›
  have hset := setSlice_reads hreads.expected hwithin hvectors hchunk
  have hsetMask := setSlice_reads hregMaskLength hwithin hvectors hmaskChunk
  have hlength : (BitPacking.splice (s.registers slice.reg).expectedFromSut
      (slice.range.offset ordering (bitsCount slice.reg))
      ((sequence.drop offset).take slice.range.count)).length = bitsCount slice.reg := by
    have hexpected := hreads.expected
    rw [BitPacking.splice_length (by omega), hexpected]
  have hmaskLength : (BitPacking.splice (maskOf bitsCount s slice.reg)
      (slice.range.offset ordering (bitsCount slice.reg))
      ((dontCareMask.drop offset).take slice.range.count)).length = bitsCount slice.reg := by
    rw [BitPacking.splice_length (by omega), hregMaskLength]
  obtain ⟨r', hr', hreads', hordering, hexpected, hnewMask, hmismatches⟩ :=
    hreads.setExpectedFromSut hlength (.inr hmaskLength)
  have hsome : r'.dontCareMask ≠ [] := by
    rw [hnewMask]
    exact List.ne_nil_of_length_pos (by omega)
  refine ⟨s.setRegister slice.reg r', ?_, hv.setRegister hordering hreads', ⟨?_, ?_⟩, ⟨?_, ?_⟩, ?_,
    setRegister_field hmismatches⟩
  · simp only [updateExpectedAndMask, hregMask, hv.numbered slice hslice, hvalue, hmaskValue, bind,
      Except.bind]
    rw [hset]
    simp only [hsetMask, hr', pure, Except.pure]
  · rw [expectedOf, SystemModel.setRegister_self, hexpected]
    rfl
  · intro other hother
    rw [expectedOf, SystemModel.setRegister_other _ _ hother]
    rfl
  · rw [maskOf, SystemModel.setRegister_self, if_neg hsome, hnewMask]
  · intro other hother
    rw [maskOf, SystemModel.setRegister_other _ _ hother]
    rfl
  · intro reg hreg
    by_cases hsame : reg = slice.reg
    · rwa [hsame, SystemModel.setRegister_self]
    · rw [SystemModel.setRegister_other _ _ hsame]
      exact hreg.resolve_left hsame

/-- After a read with a mask every register has one. -/
theorem Steps.masked
    (hsteps : Steps (fun slice _ s s' => ∀ reg, reg = slice.reg ∨ (s.registers reg).dontCareMask ≠ [] →
      (s'.registers reg).dontCareMask ≠ []) v offset s s') (reg : Nat)
    (hreg : reg ∈ v.identifiers ∨ (s.registers reg).dontCareMask ≠ []) :
    (s'.registers reg).dontCareMask ≠ [] := by
  induction v generalizing offset s with
  | nil =>
    subst hsteps
    exact hreg.resolve_left List.not_mem_nil
  | cons slice rest ih =>
    obtain ⟨between, hfirst, hrest⟩ := hsteps
    refine ih hrest ?_
    rcases hreg with hmem | hsome
    · rcases List.mem_cons.mp hmem with rfl | hlater
      · exact .inr (hfirst _ (.inl rfl))
      · exact .inl hlater
    · exact .inr (hfirst reg (.inr hsome))

/-- The bits that the registers care for once they have been told what to expect. -/
def CaresAfter (v : VirtualRegister) (ordering : BitsOrdering) (bitsCount : Nat → Nat)
    (dontCareMask : Bits) (s : SystemModel) (reg i : Nat) : Prop :=
  if dontCareMask = [] then Cares (s.registers reg).dontCareMask i
  else (∃ k : Nat, (v.namedBits ordering bitsCount)[k]? = some (reg, i) ∧
      dontCareMask[k]? = some true) ∨
    (reg, i) ∉ v.namedBits ordering bitsCount ∧ (s.registers reg).dontCareMask[i]? = some true

/-- What the registers expect after `SetExpectedFromSut`. -/
theorem setExpectedFromSut_ok (hv : v.Proxies s ordering bitsCount)
    (hsequence : sequence.length = (v.namedBits ordering bitsCount).length)
    (hsize : sequence.length < uint32Size)
    (hmask : dontCareMask = [] ∨ dontCareMask.length = sequence.length) :
    ∃ s', v.setExpectedFromSut sequence dontCareMask s = .ok s' ∧
      v.Proxies s' ordering bitsCount ∧
      (∀ reg, (s'.registers reg).mismatches = (s.registers reg).mismatches) ∧
      (∀ reg i k : Nat, (v.namedBits ordering bitsCount)[k]? = some (reg, i) →
        (s'.registers reg).expectedFromSut[i]? = sequence[k]?) ∧
      ∀ reg ∈ v.identifiers, ∀ i, i < bitsCount reg → (Cares (s'.registers reg).dontCareMask i ↔
        CaresAfter v ordering bitsCount dontCareMask s reg i) := by
  have hwidths (slice : RegisterSlice) (hslice : slice ∈ v) := hv.width hslice
  have hexpectedLength (slice : RegisterSlice) (hslice : slice ∈ v) :
      (expectedOf s slice.reg).length = bitsCount slice.reg := (hv.reads slice hslice).expected
  have hcount : (v.namedBits ordering bitsCount).length < uint32Size := by omega
  by_cases hnone : dontCareMask = []
  · subst hnone
    obtain ⟨s', hrun, hv', hsteps⟩ := updateRegisters_steps
      (Q := fun s => v.Proxies s ordering bitsCount) hv.some hv.numbered hwidths hcount (fun slice hslice offset s hin hs => by
        rw [← hsequence] at hin ⊢
        exact updateExpected_step hs hslice hin hsize) hv
    refine ⟨s', ?_, hv', fun reg => ?_, fun reg i k hk => ?_, fun reg _ i _ => ?_⟩
    · rw [setExpectedFromSut, if_pos rfl]
      exact hrun
    · have hkept : (fun reg => (s'.registers reg).mismatches) =
          fun reg => (s.registers reg).mismatches := Steps.kept (hsteps.mono fun _ _ _ _ h => h.2.2)
      exact congrFun hkept reg
    · have hbits := Steps.getElem? (hsteps.mono fun _ _ _ _ h => h.1) hexpectedLength hv.within
        hv.disjoint (by omega) reg i
      rw [← Nat.zero_add k]
      exact hbits.1 k hk
    · have hkept : (fun reg => (s'.registers reg).dontCareMask) =
          fun reg => (s.registers reg).dontCareMask := Steps.kept (hsteps.mono fun _ _ _ _ h => h.2.1)
      rw [CaresAfter, if_pos rfl, congrFun hkept reg]
  · have hlength := hmask.resolve_left hnone
    obtain ⟨s', hrun, hv', hsteps⟩ := updateRegisters_steps
      (Q := fun s => v.Proxies s ordering bitsCount) hv.some hv.numbered hwidths hcount (fun slice hslice offset s hin hs => by
        rw [← hsequence] at hin ⊢
        exact updateExpectedAndMask_step hs hslice hin hsize hlength) hv
    have hmaskLength (slice : RegisterSlice) (hslice : slice ∈ v) :
        (maskOf bitsCount s slice.reg).length = bitsCount slice.reg := by
      rw [maskOf]
      split
      · exact Bits.zeros_length _
      · exact (hv.reads slice hslice).mask.resolve_left ‹_›
    refine ⟨s', ?_, hv', fun reg => ?_, fun reg i k hk => ?_, fun reg hreg i _ => ?_⟩
    · rw [setExpectedFromSut, if_neg hnone, if_neg (not_not.mpr hlength)]
      exact hrun
    · have hkept : (fun reg => (s'.registers reg).mismatches) =
          fun reg => (s.registers reg).mismatches :=
        Steps.kept (hsteps.mono fun _ _ _ _ h => h.2.2.2)
      exact congrFun hkept reg
    · have hbits := Steps.getElem? (hsteps.mono fun _ _ _ _ h => h.1) hexpectedLength hv.within
        hv.disjoint (by omega) reg i
      rw [← Nat.zero_add k]
      exact hbits.1 k hk
    · have hsome := Steps.masked (hsteps.mono fun _ _ _ _ h => h.2.2.1) reg (.inl hreg)
      obtain ⟨hnamed, hother⟩ := Steps.getElem? (hsteps.mono fun _ _ _ _ h => h.2.1) hmaskLength
        hv.within hv.disjoint (by omega) reg i
      have hmaskOf : maskOf bitsCount s' reg = (s'.registers reg).dontCareMask := if_neg hsome
      rw [hmaskOf] at hnamed hother
      have hcares : Cares (s'.registers reg).dontCareMask i ↔
          (s'.registers reg).dontCareMask[i]? = some true := or_iff_right hsome
      rw [hcares, CaresAfter, if_neg hnone]
      by_cases hmem : (reg, i) ∈ v.namedBits ordering bitsCount
      · obtain ⟨k, hk⟩ := List.mem_iff_getElem?.mp hmem
        constructor
        · intro hcared
          rw [hnamed k hk, Nat.zero_add] at hcared
          exact .inl ⟨k, hk, hcared⟩
        · rintro (⟨k', hk', hcared⟩ | ⟨hout, -⟩)
          · rw [hnamed k' hk', Nat.zero_add, hcared]
          · exact absurd hmem hout
      · have hzeros : (maskOf bitsCount s reg)[i]? = some true ↔
            (s.registers reg).dontCareMask[i]? = some true := by
          rw [maskOf]
          split
          · rename_i hempty
            simp [hempty, Bits.zeros, List.getElem?_replicate]
          · rfl
        rw [hother hmem, hzeros]
        constructor
        · exact fun hcared => .inr ⟨hmem, hcared⟩
        · rintro (⟨k, hk, -⟩ | ⟨-, hcared⟩)
          · exact absurd (List.mem_of_getElem? hk) hmem
          · exact hcared

end Updates

end VirtualRegister

end Mast
