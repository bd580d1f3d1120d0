import Mast.Scan.ExpectedFromSut
import Mast.Scan.RangeChecks
import Mast.Scan.SelectorSteps
import Mast.Scan.View

/-!
# A virtual register over one register

`VirtualRegister(reg)` proxies the bits of one register from the last one down to zero, however the register numbers them. Calls through it do what the same calls of the register do, except that a read without a mask leaves the mask of the register behind, and that nothing works for a register of several bits that are numbered `Upto`.
-/

namespace Mast

open BinaryVector (IndexedRange)
open Outcome

def Register.lastCompareResult (r : Register) : Except Fault Bits := do
  let result ← PathSelector.combine xor r.lastReadFromSut r.expectedFromSut
  if r.dontCareMask = [] then return result
  else PathSelector.combine (· && ·) result r.dontCareMask

namespace VirtualRegister

def lastFromSut (v : VirtualRegister) (s : SystemModel) : Except Fault Bits :=
  v.getView s Register.lastFromSut

/-- The loop of `GetView` over the slices, for the compare results. -/
def compareSlices (s : SystemModel) (ordering : BitsOrdering) :
    VirtualRegister → Except Fault Bits
  | [] => .ok []
  | slice :: rest => do
    let value ← (s.registers slice.reg).lastCompareResult
    let bits ← getSlice slice.range ordering value
    let view ← compareSlices s ordering rest
    return bits ++ view

/-- `VirtualRegister::LastCompareResult`. -/
def lastCompareResult (v : VirtualRegister) (s : SystemModel) : Except Fault Bits :=
  if v = [] then
    .error (.runtimeError
      "VirtualRegister must be interface to at least one register before requesting some values")
  else compareSlices s (v.bitsOrdering s) v

end VirtualRegister

/-! ### Calls -/

inductive RegisterCall
  | setToSut (sequence : Bits)
  | setExpectedFromSut (sequence dontCareMask : Bits)
  | nextToSut
  | lastToSut
  | lastFromSut
  | lastCompareResult
  deriving DecidableEq

namespace RegisterCall

/-- The register after the call, and the value it returns. -/
def onRegister (r : Register) : RegisterCall → Except Fault (Register × Option Bits)
  | setToSut sequence => (r.setToSut sequence).map (·, none)
  | setExpectedFromSut sequence dontCareMask =>
    (r.setExpectedFromSut sequence dontCareMask).map (·, none)
  | nextToSut => .ok (r, some r.nextToSut)
  | lastToSut => .ok (r, some r.lastToSut)
  | lastFromSut => .ok (r, some r.lastFromSut)
  | lastCompareResult => r.lastCompareResult.map fun result => (r, some result)

/-- The registers after the call, and the value it returns. -/
def onVirtual (v : VirtualRegister) (s : SystemModel) :
    RegisterCall → Except Fault (SystemModel × Option Bits)
  | setToSut sequence => (v.setToSut sequence s).map (·, none)
  | setExpectedFromSut sequence dontCareMask =>
    (v.setExpectedFromSut sequence dontCareMask s).map (·, none)
  | nextToSut => (v.nextToSut s).map fun value => (s, some value)
  | lastToSut => (v.lastToSut s).map fun value => (s, some value)
  | lastFromSut => (v.lastFromSut s).map fun value => (s, some value)
  | lastCompareResult => (v.lastCompareResult s).map fun result => (s, some result)

/-- The arguments have the given width; a mask may be left out. -/
def HasWidth (width : Nat) : RegisterCall → Prop
  | setToSut sequence => sequence.length = width
  | setExpectedFromSut sequence dontCareMask =>
    sequence.length = width ∧ (dontCareMask = [] ∨ dontCareMask.length = width)
  | _ => True

end RegisterCall

/-- Through the virtual register each call does to the register what it does when it is called directly, and returns the same. -/
def Behaves (reg : Nat) (v : VirtualRegister) : List RegisterCall → SystemModel → Prop
  | [], _ => True
  | call :: calls, s =>
    ∃ r value, call.onRegister (s.registers reg) = .ok (r, value) ∧
      call.onVirtual v s = .ok (s.setRegister reg r, value) ∧
      Behaves reg v calls (s.setRegister reg r)

def RegisterCall.maskAfter (kept : Bits) : RegisterCall → Bits
  | setExpectedFromSut _ dontCareMask => dontCareMask
  | _ => kept

/-- The call is not a read without a mask of a register that has one. -/
def RegisterCall.ReplacesMask (kept : Bits) : RegisterCall → Prop
  | setExpectedFromSut _ dontCareMask => dontCareMask = [] → kept = []
  | _ => True

def FindsNoMask : Bits → List RegisterCall → Prop
  | _, [] => True
  | kept, call :: calls => call.ReplacesMask kept ∧ FindsNoMask (call.maskAfter kept) calls

/-- All vectors of the register have its width, as its constructor makes them. -/
structure Register.Sized (r : Register) (width : Nat) : Prop where
  hasWidth : r.HasWidth width
  lastFromSut : r.lastFromSut.length = width
  lastReadFromSut : r.lastReadFromSut.length = width
  reads : r.Reads width

theorem Register.create_sized (name : String) {bypassSequence : Bits} (holdValue : Bool)
    (bitsOrdering : BitsOrdering) (hvectors : bypassSequence.length + 7 < uint32Size) :
    (Register.create name bypassSequence holdValue bitsOrdering).Sized bypassSequence.length where
  hasWidth := ⟨rfl, rfl, rfl⟩
  lastFromSut := rfl
  lastReadFromSut := List.length_replicate
  reads := ⟨rfl, rfl, .inl rfl, fun _ hsequence => .inr hsequence, hvectors⟩

theorem Register.Sized.validDontCareMask {r : Register} {width : Nat} (hr : r.Sized width) :
    ∃ kept, r.validDontCareMask = .ok kept ∧ kept.length = width := by
  unfold Register.validDontCareMask
  by_cases hnone : r.dontCareMask = []
  · rw [if_pos hnone, hr.reads.bitsCount, Bits.filled_zeros hr.reads.vectors]
    exact ⟨_, rfl, Bits.zeros_length _⟩
  · rw [if_neg hnone]
    exact ⟨_, rfl, hr.reads.mask.resolve_left hnone⟩

/-! ### Updates of the whole register -/

namespace VirtualRegister

variable {s s' : SystemModel} {reg width : Nat}
  {registerUpdater : RegisterSlice → IndexedRange → SystemModel → Except Fault SystemModel}

/-- Numbered the other way, several bits cannot be written as a whole. -/
theorem setSlice_whole_upto {bits value : Bits} (hmany : 1 < bits.length)
    (hbits : bits.length < uint32Size) (result : Bits) :
    setSlice ⟨bits.length - 1, 0⟩ .upto bits value ≠ .ok result := by
  intro hset
  rw [setSlice, if_neg (List.ne_nil_of_length_pos (by omega)),
    wholeRange_width (by omega) hbits] at hset
  change (if bits.length ≠ value.length then _ else _) = _ at hset
  split at hset
  · cases hset
  · rename_i hsame
    obtain ⟨-, hbytes, hrange, -⟩ : _ ∧ bits.length - 1 + value.length ≤ _ ∧
        (bits.length - 1 + value.length) % uint32Size ≤ _ ∧ _ := Bits.setSlice_within hbits hset
    have hfew := BitPacking.bytesFor_lt bits.length
    rw [Nat.mod_eq_of_lt (by unfold uint32Size; omega)] at hrange
    omega

theorem updateEach_whole {ordering : BitsOrdering} (hpos : 0 < width) (hwidth : width < uint32Size)
    (hordering : ordering = .upto → width = 1)
    (hupdate : registerUpdater ⟨reg, ⟨width - 1, 0⟩⟩ ⟨width - 1, 0⟩ s = .ok s') :
    updateEach registerUpdater ordering (.ofRegister reg width) (width - 1) s = .ok s' := by
  have hright : (if ordering = .upto then (width - 1 + (width - 1)) % uint32Size
      else (width - 1 + (uint32Size - (width - 1))) % uint32Size) = 0 := by
    split
    · rw [hordering ‹_›]
      rfl
    · rw [show width - 1 + (uint32Size - (width - 1)) = uint32Size by omega, Nat.mod_self]
  simp only [ofRegister, updateEach, wholeRange_width hpos hwidth, hright, bind, Except.bind,
    hupdate]

theorem updateRegisters_whole (hpos : 0 < width) (hwidth : width < uint32Size)
    (hordering : (s.registers reg).bitsOrdering = .upto → width = 1)
    (hupdate : registerUpdater ⟨reg, ⟨width - 1, 0⟩⟩ ⟨width - 1, 0⟩ s = .ok s') :
    updateRegisters registerUpdater (.ofRegister reg width) s = .ok s' := by
  have hregs : ofRegister reg width ≠ [] := List.cons_ne_nil _ _
  have hordered : (ofRegister reg width).bitsOrdering s = .upto → width = 1 := hordering
  have hupdated := updateEach_whole hpos hwidth hordered hupdate
  rw [updateRegisters, if_neg hregs]
  split
  · rename_i hupto
    obtain rfl := hordered hupto
    rwa [hupto] at hupdated
  · have hcount : (ofRegister reg width).bitsCount = .ok width := by
      simp only [ofRegister, bitsCount, wholeRange_width hpos hwidth, bind, Except.bind, pure,
        Except.pure, Nat.add_zero, Nat.mod_eq_of_lt hwidth]
    have hindex : (width + (uint32Size - 1)) % uint32Size = width - 1 := by
      rw [show width + (uint32Size - 1) = width - 1 + uint32Size by unfold uint32Size; omega,
        Nat.add_mod_right, Nat.mod_eq_of_lt (by omega)]
    rw [hcount]
    simp only [bind, Except.bind, hindex]
    exact hupdated

/-- With bits numbered `Upto` the register is updated through its range from the last bit to zero. -/
theorem updateRegisters_upto (hpos : 0 < width) (hwidth : width < uint32Size)
    (hupto : (s.registers reg).bitsOrdering = .upto)
    (hupdate : updateRegisters registerUpdater (.ofRegister reg width) s = .ok s') :
    registerUpdater ⟨reg, ⟨width - 1, 0⟩⟩ ⟨0, width - 1⟩ s = .ok s' := by
  have hregs : ofRegister reg width ≠ [] := List.cons_ne_nil _ _
  have hfirst : (ofRegister reg width).bitsOrdering s = .upto := hupto
  rw [updateRegisters, if_neg hregs, if_pos hfirst, ofRegister, updateEach,
    wholeRange_width hpos hwidth] at hupdate
  obtain ⟨count, hcount, hupdate⟩ := bind_eq_ok.mp hupdate
  obtain rfl := Except.ok.inj hcount
  obtain ⟨between, hfirst, hrest⟩ := bind_eq_ok.mp hupdate
  obtain rfl := Except.ok.inj hrest
  simp only [if_true, Nat.zero_add,
    Nat.mod_eq_of_lt (show width - 1 < uint32Size by omega)] at hfirst
  exact hfirst

end VirtualRegister

/-! ### The calls of a register that can be used as a whole -/

section Calls

variable {s : SystemModel} {reg width : Nat} {call : RegisterCall} {calls : List RegisterCall}

theorem SystemModel.setRegister_registers (s : SystemModel) (reg : Nat) :
    s.setRegister reg (s.registers reg) = s := by
  rw [setRegister, Function.update_eq_self]

namespace VirtualRegister

/-- The register that a multiplexer of the same width could have. -/
theorem mux_of_sized (hr : (s.registers reg).Sized width)
    (hordering : (s.registers reg).bitsOrdering = .upto → width = 1) :
    s.Mux reg width (s.registers reg).nextToSut (s.registers reg).lastToSut :=
  ⟨hr.hasWidth, hordering, rfl, rfl⟩

section Whole

variable (hr : (s.registers reg).Sized width) (hpos : 0 < width)
  (hordering : (s.registers reg).bitsOrdering = .upto → width = 1)

include hr hpos hordering

theorem getView_sized {getter : Register → Bits}
    (hgetter : (getter (s.registers reg)).length = width) :
    (ofRegister reg width).getView s getter = .ok (getter (s.registers reg)) := by
  have hvectors := hr.reads.vectors
  exact getView_whole (mux_of_sized hr hordering) hpos (by omega) hgetter

theorem compareSlices_sized {result : Bits}
    (hresult : (s.registers reg).lastCompareResult = .ok result) (hlength : result.length = width) :
    (ofRegister reg width).lastCompareResult s = .ok result := by
  subst hlength
  have hvectors := hr.reads.vectors
  have hslice := getSlice_whole hordering hpos (show result.length < uint32Size by omega)
  simp only [VirtualRegister.lastCompareResult, ofRegister, if_neg (List.cons_ne_nil _ _),
    compareSlices, bitsOrdering, List.head?_cons, hresult, hslice, bind, Except.bind, pure,
    Except.pure, List.append_nil]

theorem setSlice_sized {bits value : Bits} (hbits : bits.length = width)
    (hvalue : value.length = width) :
    setSlice ⟨width - 1, 0⟩ (s.registers reg).bitsOrdering bits value = .ok value := by
  subst hbits
  have hvectors := hr.reads.vectors
  exact setSlice_whole hordering hpos (by omega) hvalue

theorem getSlice_sized {bits : Bits} (hbits : bits.length = width) :
    getSlice ⟨width - 1, 0⟩ (s.registers reg).bitsOrdering bits = .ok bits := by
  subst hbits
  have hvectors := hr.reads.vectors
  exact getSlice_whole hordering hpos (by omega)

theorem setToSut_sized {sequence : Bits} {r : Register} (hsequence : sequence.length = width)
    (hset : (s.registers reg).setToSut sequence = .ok r) :
    (ofRegister reg width).setToSut sequence s = .ok (s.setRegister reg r) := by
  have hvectors := hr.reads.vectors
  have hregs : ofRegister reg width ≠ [] := List.cons_ne_nil _ _
  rw [setToSut_eq_updateRegisters (List.ne_nil_of_length_pos (by omega)) hregs]
  apply updateRegisters_whole hpos (by omega) hordering
  simp only [updateRegister, getSlice_sized hr hpos hordering hsequence,
    setSlice_sized hr hpos hordering hr.hasWidth.nextToSut hsequence, hset, bind, Except.bind, pure,
    Except.pure]

theorem setExpectedFromSut_sized {sequence : Bits} {r : Register}
    (hsequence : sequence.length = width)
    (hset : (s.registers reg).setExpectedSequence sequence = .ok r) :
    (ofRegister reg width).setExpectedFromSut sequence [] s = .ok (s.setRegister reg r) := by
  have hvectors := hr.reads.vectors
  rw [VirtualRegister.setExpectedFromSut, if_pos rfl]
  apply updateRegisters_whole hpos (by omega) hordering
  simp only [updateExpected, getSlice_sized hr hpos hordering hsequence,
    setSlice_sized hr hpos hordering hr.reads.expected hsequence, hset, bind, Except.bind, pure,
    Except.pure]

theorem setExpectedFromSut_masked_sized {sequence dontCareMask : Bits} {r : Register}
    (hsequence : sequence.length = width) (hmask : dontCareMask.length = width)
    (hset : (s.registers reg).setExpectedFromSut sequence dontCareMask = .ok r) :
    (ofRegister reg width).setExpectedFromSut sequence dontCareMask s =
      .ok (s.setRegister reg r) := by
  have hvectors := hr.reads.vectors
  obtain ⟨kept, hkept, hlength⟩ := hr.validDontCareMask
  have hsame : ¬dontCareMask.length ≠ sequence.length := by omega
  rw [VirtualRegister.setExpectedFromSut, if_neg (List.ne_nil_of_length_pos (by omega)),
    if_neg hsame]
  apply updateRegisters_whole hpos (by omega) hordering
  simp only [updateExpectedAndMask, hkept, getSlice_sized hr hpos hordering hsequence,
    getSlice_sized hr hpos hordering hmask,
    setSlice_sized hr hpos hordering hr.reads.expected hsequence,
    setSlice_sized hr hpos hordering hlength hmask, hset, bind, Except.bind, pure, Except.pure]

end Whole

end VirtualRegister

namespace Register

theorem Sized.lastCompareResult {r : Register} (hr : r.Sized width) :
    ∃ result, r.lastCompareResult = .ok result ∧ result.length = width := by
  have hexpected : r.expectedFromSut.length = r.lastReadFromSut.length :=
    hr.reads.expected.trans hr.lastReadFromSut.symm
  have hlength : (List.zipWith xor r.lastReadFromSut r.expectedFromSut).length = width := by
    rw [List.length_zipWith, hexpected, Nat.min_self, hr.lastReadFromSut]
  rw [Register.lastCompareResult, PathSelector.combine_eq xor hexpected]
  by_cases hnone : r.dontCareMask = []
  · exact ⟨_, if_pos hnone, hlength⟩
  · have hmask := hr.reads.mask.resolve_left hnone
    refine ⟨_, (if_neg hnone).trans (PathSelector.combine_eq _ (hmask.trans hlength.symm)), ?_⟩
    rw [List.length_zipWith, hlength, hmask, Nat.min_self]

theorem Sized.setToSut {r : Register} (hr : r.Sized width) {sequence : Bits}
    (hsequence : sequence.length = width) :
    ∃ r', r.setToSut sequence = .ok r' ∧ r'.Sized width ∧ r'.bitsOrdering = r.bitsOrdering ∧
      r'.dontCareMask = r.dontCareMask := by
  have hbypass : (if r.holdValue then sequence else r.bypass).length = width := by
    split
    · exact hsequence
    · exact hr.hasWidth.bypass
  rw [Register.setToSut, dif_pos (hr.reads.fits sequence hsequence)]
  exact ⟨_, rfl, ⟨⟨hsequence, hr.hasWidth.lastToSut, hbypass⟩, hr.lastFromSut, hr.lastReadFromSut,
    ⟨hbypass, hr.reads.expected, hr.reads.mask, hr.reads.fits, hr.reads.vectors⟩⟩, rfl, rfl⟩

theorem Sized.setExpectedFromSut {r : Register} (hr : r.Sized width) {sequence dontCareMask : Bits}
    (hsequence : sequence.length = width)
    (hmask : dontCareMask = [] ∨ dontCareMask.length = width) :
    ∃ r', r.setExpectedFromSut sequence dontCareMask = .ok r' ∧ r'.Sized width ∧
      r'.bitsOrdering = r.bitsOrdering ∧ r'.dontCareMask = dontCareMask := by
  have hsizes : ¬(dontCareMask ≠ [] ∧ dontCareMask.length ≠ sequence.length) := by
    rw [hsequence]
    exact fun h => h.2 (hmask.resolve_left h.1)
  rw [Register.setExpectedFromSut, if_neg hsizes, dif_pos (hr.reads.fits sequence hsequence)]
  have hwidths := hr.hasWidth
  exact ⟨_, rfl, ⟨⟨hwidths.nextToSut, hwidths.lastToSut, hwidths.bypass⟩, hr.lastFromSut,
    hr.lastReadFromSut, ⟨hr.reads.bitsCount, hsequence, hmask, hr.reads.fits, hr.reads.vectors⟩⟩,
    rfl, rfl⟩

/-- For a register that has no mask, both setters are the same. -/
theorem setExpectedSequence_maskless {r : Register} (hmask : r.dontCareMask = []) (sequence : Bits) :
    r.setExpectedSequence sequence = r.setExpectedFromSut sequence [] := by
  rw [Register.setExpectedSequence, Register.setExpectedFromSut, if_neg fun h => h.1 rfl]
  cases r
  cases hmask
  rfl

end Register

theorem RegisterCall.onRegister_sized {r : Register} (hr : r.Sized width)
    (hcall : call.HasWidth width) :
    ∃ r' value, call.onRegister r = .ok (r', value) ∧ r'.Sized width ∧
      r'.bitsOrdering = r.bitsOrdering ∧ r'.dontCareMask = call.maskAfter r.dontCareMask := by
  cases call with
  | setToSut sequence =>
    obtain ⟨r', hset, hr', hordering, hmask⟩ := hr.setToSut hcall
    exact ⟨r', none, congrArg (Except.map (·, none)) hset, hr', hordering, hmask⟩
  | setExpectedFromSut sequence dontCareMask =>
    obtain ⟨r', hset, hr', hordering, hmask⟩ := hr.setExpectedFromSut hcall.1 hcall.2
    exact ⟨r', none, congrArg (Except.map (·, none)) hset, hr', hordering, hmask⟩
  | nextToSut => exact ⟨r, _, rfl, hr, rfl, rfl⟩
  | lastToSut => exact ⟨r, _, rfl, hr, rfl, rfl⟩
  | lastFromSut => exact ⟨r, _, rfl, hr, rfl, rfl⟩
  | lastCompareResult =>
    obtain ⟨result, hresult, -⟩ := hr.lastCompareResult
    exact ⟨r, _, congrArg (Except.map fun result => (r, some result)) hresult, hr, rfl, rfl⟩

theorem RegisterCall.onVirtual_keeps {sequence : Bits} (hr : (s.registers reg).Sized width)
    (hpos : 0 < width) (hordering : (s.registers reg).bitsOrdering = .upto → width = 1)
    (hsequence : sequence.length = width) :
    ∃ r', (setExpectedFromSut sequence []).onVirtual (.ofRegister reg width) s =
        .ok (s.setRegister reg r', none) ∧
      r'.dontCareMask = (s.registers reg).dontCareMask := by
  obtain ⟨r', hset, -, -, -, hmask, -⟩ := hr.reads.setExpectedSequence hsequence
  exact ⟨r', congrArg (Except.map (·, none))
    (VirtualRegister.setExpectedFromSut_sized hr hpos hordering hsequence hset), hmask⟩

theorem RegisterCall.onVirtual_sized (hr : (s.registers reg).Sized width) (hpos : 0 < width)
    (hordering : (s.registers reg).bitsOrdering = .upto → width = 1) (hcall : call.HasWidth width)
    (hmask : call.ReplacesMask (s.registers reg).dontCareMask) {r : Register} {value : Option Bits}
    (hdirect : call.onRegister (s.registers reg) = .ok (r, value)) :
    call.onVirtual (.ofRegister reg width) s = .ok (s.setRegister reg r, value) := by
  have hself := s.setRegister_registers reg
  cases call with
  | setToSut sequence =>
    obtain ⟨r', hset, hpair⟩ := map_eq_ok.mp hdirect
    obtain ⟨rfl, rfl⟩ := Prod.mk.inj hpair
    exact congrArg (Except.map (·, none))
      (VirtualRegister.setToSut_sized hr hpos hordering hcall hset)
  | setExpectedFromSut sequence dontCareMask =>
    obtain ⟨hsequence, hlength⟩ := hcall
    obtain ⟨r', hset, hpair⟩ := map_eq_ok.mp hdirect
    obtain ⟨rfl, rfl⟩ := Prod.mk.inj hpair
    have hvirtual : (VirtualRegister.ofRegister reg width).setExpectedFromSut sequence dontCareMask s =
        .ok (s.setRegister reg r') := by
      by_cases hnone : dontCareMask = []
      · subst hnone
        apply VirtualRegister.setExpectedFromSut_sized hr hpos hordering hsequence
        rw [Register.setExpectedSequence_maskless (hmask rfl)]
        exact hset
      · exact VirtualRegister.setExpectedFromSut_masked_sized hr hpos hordering hsequence
          (hlength.resolve_left hnone) hset
    exact congrArg (Except.map (·, none)) hvirtual
  | nextToSut =>
    obtain ⟨rfl, rfl⟩ := Prod.mk.inj (Except.ok.inj hdirect)
    rw [hself]
    exact congrArg (Except.map fun value => (s, some value))
      (VirtualRegister.getView_sized hr hpos hordering hr.hasWidth.nextToSut)
  | lastToSut =>
    obtain ⟨rfl, rfl⟩ := Prod.mk.inj (Except.ok.inj hdirect)
    rw [hself]
    exact congrArg (Except.map fun value => (s, some value))
      (VirtualRegister.getView_sized hr hpos hordering hr.hasWidth.lastToSut)
  | lastFromSut =>
    obtain ⟨rfl, rfl⟩ := Prod.mk.inj (Except.ok.inj hdirect)
    rw [hself]
    exact congrArg (Except.map fun value => (s, some value))
      (VirtualRegister.getView_sized hr hpos hordering hr.lastFromSut)
  | lastCompareResult =>
    obtain ⟨result, hresult, hpair⟩ := map_eq_ok.mp hdirect
    obtain ⟨rfl, rfl⟩ := Prod.mk.inj hpair
    obtain ⟨result', hresult', hlength⟩ := hr.lastCompareResult
    obtain rfl := Except.ok.inj (hresult'.symm.trans hresult)
    rw [hself]
    exact congrArg (Except.map fun result => (s, some result))
      (VirtualRegister.compareSlices_sized hr hpos hordering hresult hlength)

/-- Numbered the other way, several bits can neither be written nor read. -/
theorem RegisterCall.onVirtual_upto (hr : (s.registers reg).Sized width) (hmany : 1 < width)
    (hupto : (s.registers reg).bitsOrdering = .upto) (result : SystemModel × Option Bits) :
    call.onVirtual (.ofRegister reg width) s ≠ .ok result := by
  intro hcall
  have hwidth : width < uint32Size := by
    have hvectors := hr.reads.vectors
    omega
  have hregs : VirtualRegister.ofRegister reg width ≠ [] := List.cons_ne_nil _ _
  have hview : ∀ {getter : Register → Bits} (view : Bits),
      (getter (s.registers reg)).length = width →
      (VirtualRegister.ofRegister reg width).getView s getter ≠ .ok view := fun view hgetter =>
    VirtualRegister.getView_whole_upto hupto hmany hwidth hgetter view
  have hwrite : ∀ {bits : Bits} (value written : Bits), bits.length = width →
      VirtualRegister.setSlice ⟨width - 1, 0⟩ .upto bits value ≠ .ok written := by
    intro bits value written hbits
    subst hbits
    exact VirtualRegister.setSlice_whole_upto hmany hwidth written
  cases call with
  | setToSut sequence =>
    obtain ⟨s', hset, -⟩ := map_eq_ok.mp hcall
    have hsome : sequence ≠ [] := by
      rintro rfl
      cases hset
    rw [VirtualRegister.setToSut_eq_updateRegisters hsome hregs] at hset
    have hupdate := VirtualRegister.updateRegisters_upto (by omega) hwidth hupto hset
    obtain ⟨slicedValue, -, hupdate⟩ := bind_eq_ok.mp hupdate
    obtain ⟨regValue, hregValue, -⟩ := bind_eq_ok.mp hupdate
    rw [hupto] at hregValue
    exact hwrite _ _ hr.hasWidth.nextToSut hregValue
  | setExpectedFromSut sequence dontCareMask =>
    obtain ⟨s', hset, -⟩ := map_eq_ok.mp hcall
    rw [VirtualRegister.setExpectedFromSut] at hset
    split at hset
    · have hupdate := VirtualRegister.updateRegisters_upto (by omega) hwidth hupto hset
      obtain ⟨slicedValue, -, hupdate⟩ := bind_eq_ok.mp hupdate
      obtain ⟨regValue, hregValue, -⟩ := bind_eq_ok.mp hupdate
      rw [hupto] at hregValue
      exact hwrite _ _ hr.reads.expected hregValue
    · split at hset
      · cases hset
      · have hupdate := VirtualRegister.updateRegisters_upto (by omega) hwidth hupto hset
        obtain ⟨regMask, -, hupdate⟩ := bind_eq_ok.mp hupdate
        obtain ⟨slicedExpected, -, hupdate⟩ := bind_eq_ok.mp hupdate
        obtain ⟨slicedMask, -, hupdate⟩ := bind_eq_ok.mp hupdate
        obtain ⟨regExpected, hregExpected, -⟩ := bind_eq_ok.mp hupdate
        rw [hupto] at hregExpected
        exact hwrite _ _ hr.reads.expected hregExpected
  | nextToSut =>
    obtain ⟨value, hvalue, -⟩ := map_eq_ok.mp hcall
    exact hview value hr.hasWidth.nextToSut hvalue
  | lastToSut =>
    obtain ⟨value, hvalue, -⟩ := map_eq_ok.mp hcall
    exact hview value hr.hasWidth.lastToSut hvalue
  | lastFromSut =>
    obtain ⟨value, hvalue, -⟩ := map_eq_ok.mp hcall
    exact hview value hr.lastFromSut hvalue
  | lastCompareResult =>
    obtain ⟨value, hvalue, -⟩ := map_eq_ok.mp hcall
    obtain ⟨result', hresult, hlength⟩ := hr.lastCompareResult
    subst hlength
    rw [VirtualRegister.lastCompareResult, if_neg hregs] at hvalue
    obtain ⟨result, hresult', hvalue⟩ := bind_eq_ok.mp hvalue
    obtain rfl := Except.ok.inj (hresult.symm.trans hresult')
    obtain ⟨bits, hbits, -⟩ := bind_eq_ok.mp hvalue
    have hfirst : (VirtualRegister.ofRegister reg result'.length).bitsOrdering s = .upto := hupto
    rw [hfirst] at hbits
    exact VirtualRegister.getSlice_whole_upto hmany hwidth bits hbits

/-- What the virtual register does with one call is what the register does exactly when its bits can be taken as a whole and a mask that it has is replaced. -/
theorem RegisterCall.onVirtual_iff (hr : (s.registers reg).Sized width) (hpos : 0 < width)
    (hcall : call.HasWidth width) {r : Register} {value : Option Bits}
    (hdirect : call.onRegister (s.registers reg) = .ok (r, value)) :
    call.onVirtual (.ofRegister reg width) s = .ok (s.setRegister reg r, value) ↔
      (width = 1 ∨ (s.registers reg).bitsOrdering ≠ .upto) ∧
        call.ReplacesMask (s.registers reg).dontCareMask := by
  constructor
  · intro hvirtual
    have hordering : width = 1 ∨ (s.registers reg).bitsOrdering ≠ .upto := by
      by_contra hbad
      push Not at hbad
      exact onVirtual_upto hr (by omega) hbad.2 _ hvirtual
    refine ⟨hordering, ?_⟩
    cases call with
    | setExpectedFromSut sequence dontCareMask =>
      intro hnone
      subst hnone
      obtain ⟨r', hkeeps, hmask⟩ := onVirtual_keeps hr hpos
        (fun hupto => hordering.resolve_right (not_not.mpr hupto)) hcall.1
      have hsame := congrArg Prod.fst (Except.ok.inj (hkeeps.symm.trans hvirtual))
      have hregister := congrArg (fun s => s.registers reg) hsame
      simp only [SystemModel.setRegister_self] at hregister
      obtain ⟨r'', value', hafter, -, -, hcleared⟩ := onRegister_sized hr hcall
      obtain ⟨rfl, rfl⟩ := Prod.mk.inj (Except.ok.inj (hafter.symm.trans hdirect))
      rw [← hmask, hregister, hcleared]
      rfl
    | _ => trivial
  · rintro ⟨hordering, hmask⟩
    exact onVirtual_sized hr hpos (fun hupto => hordering.resolve_right (not_not.mpr hupto)) hcall
      hmask hdirect

/-- A virtual register over one register behaves as the register exactly when its bits can be taken as a whole and no read without a mask comes while the register has one. -/
theorem behaves_iff (hr : (s.registers reg).Sized width) (hpos : 0 < width)
    (hcalls : ∀ call ∈ calls, call.HasWidth width) :
    Behaves reg (.ofRegister reg width) calls s ↔
      (calls = [] ∨ width = 1 ∨ (s.registers reg).bitsOrdering ≠ .upto) ∧
        FindsNoMask (s.registers reg).dontCareMask calls := by
  induction calls generalizing s with
  | nil => exact iff_of_true trivial ⟨.inl rfl, trivial⟩
  | cons call calls ih =>
    rw [List.forall_mem_cons] at hcalls
    obtain ⟨r, value, hdirect, hr', hordering, hmask⟩ := RegisterCall.onRegister_sized hr hcalls.1
    have hcall := RegisterCall.onVirtual_iff hr hpos hcalls.1 hdirect
    have hself : (s.setRegister reg r).registers reg = r := s.setRegister_self reg r
    have hrest := ih (s := s.setRegister reg r) (by rwa [hself]) hcalls.2
    rw [hself, hordering, hmask] at hrest
    constructor
    · rintro ⟨r', value', hdirect', hvirtual, hlater⟩
      obtain ⟨rfl, rfl⟩ := Prod.mk.inj (Except.ok.inj (hdirect.symm.trans hdirect'))
      obtain ⟨hwhole, hreplaces⟩ := hcall.mp hvirtual
      exact ⟨.inr hwhole, hreplaces, (hrest.mp hlater).2⟩
    · rintro ⟨hwhole, hreplaces, hfinds⟩
      have hwhole := hwhole.resolve_left (List.cons_ne_nil _ _)
      exact ⟨r, value, hdirect, hcall.mpr ⟨hwhole, hreplaces⟩, hrest.mpr ⟨.inr hwhole, hfinds⟩⟩

theorem behaves_written :
    Behaves 0 (.ofRegister 0 2) [.setToSut [true, false], .nextToSut]
        (VirtualRegister.twoRegisters [false, false] [] .downto) ↔
      ([RegisterCall.setToSut [true, false], .nextToSut] = [] ∨ 2 = 1 ∨
          BitsOrdering.downto ≠ .upto) ∧
        FindsNoMask [] [.setToSut [true, false], .nextToSut] :=
  behaves_iff (s := VirtualRegister.twoRegisters [false, false] [] .downto)
    (Register.create_sized "first" false .downto (by decide)) (by decide)
    (by simp [RegisterCall.HasWidth])

/-- Bits numbered `Upto` cannot be written, and a mask survives a read without one. -/
theorem not_behaves :
    ¬Behaves 0 (.ofRegister 0 2) [.setToSut [true, false]]
        (VirtualRegister.twoRegisters [false, false] [] .upto) ∧
      ¬Behaves 0 (.ofRegister 0 2)
        [.setExpectedFromSut [true, false] [true, true], .setExpectedFromSut [true, false] []]
        (VirtualRegister.twoRegisters [false, false] [] .downto) := by
  have hsized : ∀ ordering, (Register.create "first" [false, false] false ordering).Sized 2 :=
    fun ordering => Register.create_sized "first" false ordering (by decide)
  constructor
  · rintro ⟨r, value, -, hvirtual, -⟩
    exact RegisterCall.onVirtual_upto (hsized .upto) (by decide) rfl _ hvirtual
  · rintro ⟨r, value, hdirect, -, r', value', hdirect', hvirtual, -⟩
    have hmasked : RegisterCall.HasWidth 2 (.setExpectedFromSut [true, false] [true, true]) :=
      ⟨rfl, .inr rfl⟩
    have hmaskless : RegisterCall.HasWidth 2 (.setExpectedFromSut [true, false] []) :=
      ⟨rfl, .inl rfl⟩
    obtain ⟨r'', value'', hafter, hr, -, hmask⟩ :=
      RegisterCall.onRegister_sized (hsized .downto) hmasked
    obtain ⟨rfl, rfl⟩ := Prod.mk.inj (Except.ok.inj (hafter.symm.trans hdirect))
    have hself := SystemModel.setRegister_self
      (VirtualRegister.twoRegisters [false, false] [] .downto) 0 r''
    obtain ⟨-, hreplaces⟩ := (RegisterCall.onVirtual_iff (by rwa [hself]) (by decide)
      hmaskless hdirect').mp hvirtual
    rw [hself, hmask] at hreplaces
    cases hreplaces rfl

end Calls

end Mast
