import Mast.Lib.Attempt
import Mast.Scan.SingleRegister

/-!
# Values of the wrong width

A virtual register does not compare the width of what is written to it with its own. It relies on a slice of the value being out of range, which is found out while the registers are updated one after the other. So what counts is the first slice: if it can be written, its register has changed whatever comes then, and if it cannot, nothing has.
-/

namespace Mast

open BinaryVector (IndexedRange)
open Attempt (attempt)
open Outcome

namespace VirtualRegister

/-! ### Updates that keep the state when they throw -/

def rightEnd (ordering : BitsOrdering) (left width : Nat) : Nat :=
  if ordering = .upto then (left + (width - 1)) % uint32Size
  else (left + (uint32Size - (width - 1))) % uint32Size

def nextLeft (ordering : BitsOrdering) (right : Nat) : Nat :=
  if ordering = .upto then (right + 1) % uint32Size else (right + (uint32Size - 1)) % uint32Size

/-- One iteration of the loop of `UpdateRegisters`, with the left end of the range of the value. -/
def updateStep
    (registerUpdater : RegisterSlice → IndexedRange → SystemModel → Except Fault SystemModel)
    (ordering : BitsOrdering) (slice : RegisterSlice) :
    Nat × SystemModel → Except Fault (Nat × SystemModel)
  | (left, s) => do
    let width ← slice.range.width
    let right := rightEnd ordering left width
    let s ← registerUpdater slice ⟨left, right⟩ s
    return (nextLeft ordering right, s)

/-- `UpdateRegisters`, with the state that it leaves. -/
def attemptUpdateRegisters
    (registerUpdater : RegisterSlice → IndexedRange → SystemModel → Except Fault SystemModel)
    (v : VirtualRegister) (s : SystemModel) : Attempt Fault SystemModel :=
  if v = [] then ⟨s, some .undefinedBehaviour⟩
  else if v.bitsOrdering s = .upto then
    (attempt (updateStep registerUpdater .upto) v (0, s)).map Prod.snd
  else
    match v.bitsCount with
    | .error fault => ⟨s, some fault⟩
    | .ok count =>
      (attempt (updateStep registerUpdater (v.bitsOrdering s)) v
        ((count + (uint32Size - 1)) % uint32Size, s)).map Prod.snd

/-- `SetToSut`, with the state that it leaves. -/
def attemptSetToSut (v : VirtualRegister) (sequence : Bits) (s : SystemModel) :
    Attempt Fault SystemModel :=
  if sequence = [] then
    ⟨s, some (.invalidArgument "Can not set to SUT value with empty vector")⟩
  else if v = [] then
    ⟨s, some (.runtimeError
      "VirtualRegister must be 'interface' to at least one register before calling SetToSut")⟩
  else
    attemptUpdateRegisters (fun slice valueRange => updateRegister slice valueRange sequence) v s

/-- `SetExpectedFromSut`, with the state that it leaves. -/
def attemptSetExpectedFromSut (v : VirtualRegister) (sequence dontCareMask : Bits)
    (s : SystemModel) : Attempt Fault SystemModel :=
  if dontCareMask = [] then attemptUpdateRegisters (updateExpected sequence) v s
  else if dontCareMask.length ≠ sequence.length then
    ⟨s, some (.invalidArgument "Don't care mask must have same size as Register")⟩
  else attemptUpdateRegisters (updateExpectedAndMask sequence dontCareMask) v s

section Connection

variable {registerUpdater : RegisterSlice → IndexedRange → SystemModel → Except Fault SystemModel}
  {v : VirtualRegister} {s : SystemModel} {ordering : BitsOrdering}

theorem updateStep_eq
    (registerUpdater : RegisterSlice → IndexedRange → SystemModel → Except Fault SystemModel)
    (ordering : BitsOrdering) (left : Nat) (s : SystemModel) {slice : RegisterSlice} {width : Nat}
    (hwidth : slice.range.width = .ok width) :
    updateStep registerUpdater ordering slice (left, s) =
      (registerUpdater slice ⟨left, rightEnd ordering left width⟩ s).map
        (nextLeft ordering (rightEnd ordering left width), ·) := by
  simp only [updateStep, hwidth, bind, Except.bind]
  cases registerUpdater slice ⟨left, rightEnd ordering left width⟩ s with
  | error fault => rfl
  | ok s' => rfl

theorem updateEach_cons {slice : RegisterSlice} {rest : VirtualRegister} {left width : Nat}
    (hwidth : slice.range.width = .ok width) :
    updateEach registerUpdater ordering (slice :: rest) left s =
      (registerUpdater slice ⟨left, rightEnd ordering left width⟩ s).bind
        (updateEach registerUpdater ordering rest (nextLeft ordering (rightEnd ordering left width))) := by
  rw [updateEach, hwidth]
  rfl

theorem attempt_updateEach (v : VirtualRegister) (left : Nat) (s : SystemModel) :
    ((attempt (updateStep registerUpdater ordering) v (left, s)).map Prod.snd).toExcept =
      updateEach registerUpdater ordering v left s := by
  rw [Attempt.toExcept_map, Attempt.attempt_toExcept]
  induction v generalizing left s with
  | nil => rfl
  | cons slice rest ih =>
    rw [List.foldlM_cons]
    cases hwidth : slice.range.width with
    | error fault =>
      rw [updateEach, hwidth]
      simp only [updateStep, hwidth]
      rfl
    | ok width =>
      rw [updateStep_eq _ _ _ _ hwidth, updateEach_cons hwidth]
      cases registerUpdater slice ⟨left, rightEnd ordering left width⟩ s with
      | error fault => rfl
      | ok s' => exact ih _ s'

theorem attemptUpdateRegisters_toExcept (v : VirtualRegister) (s : SystemModel) :
    (attemptUpdateRegisters registerUpdater v s).toExcept = updateRegisters registerUpdater v s := by
  unfold attemptUpdateRegisters updateRegisters
  split
  · rfl
  · split
    · exact attempt_updateEach v 0 s
    · cases hcount : v.bitsCount with
      | error fault => rfl
      | ok count => exact attempt_updateEach v _ s

theorem attemptSetToSut_toExcept (v : VirtualRegister) (sequence : Bits) (s : SystemModel) :
    (v.attemptSetToSut sequence s).toExcept = v.setToSut sequence s := by
  unfold attemptSetToSut
  split
  · rw [setToSut, if_pos ‹_›]
    rfl
  · split
    · rw [setToSut, if_neg ‹_›, if_pos ‹_›]
      rfl
    · rw [setToSut_eq_updateRegisters ‹_› ‹_›]
      exact attemptUpdateRegisters_toExcept v s

theorem attemptSetExpectedFromSut_toExcept (v : VirtualRegister) (sequence dontCareMask : Bits)
    (s : SystemModel) :
    (v.attemptSetExpectedFromSut sequence dontCareMask s).toExcept =
      v.setExpectedFromSut sequence dontCareMask s := by
  unfold attemptSetExpectedFromSut setExpectedFromSut
  split
  · exact attemptUpdateRegisters_toExcept v s
  · split
    · rfl
    · exact attemptUpdateRegisters_toExcept v s

end Connection

/-! ### The first slice of a value -/

/-- A value of the given length has no bits for a first slice of the given width, and the range check finds this out. The last alternative is for widths whose sum wraps. -/
def LacksFirst (ordering : BitsOrdering) (length count width : Nat) : Prop :=
  if ordering = .upto then length < width
  else count = 0 ∨ length < count ∨
    count < width ∧ (length - count + width < uint32Size ∨
      uint32Size < length - count + width ∧ length - count + 2 < width)

def firstLeft (ordering : BitsOrdering) (count : Nat) : Nat :=
  if ordering = .upto then 0 else (count + (uint32Size - 1)) % uint32Size

/-- The range of the value that is written to the first slice. -/
def firstRange (ordering : BitsOrdering) (count width : Nat) : IndexedRange :=
  ⟨firstLeft ordering count, rightEnd ordering (firstLeft ordering count) width⟩

section First

variable {bits : Bits} {ordering : BitsOrdering} {count width : Nat}

/-- The first slice of a value of the wrong width, numbered down to zero. -/
theorem adapted_first (hbits : bits.length < uint32Size) (hcount : count < uint32Size)
    (hcountPos : 0 < count) (hle : count ≤ bits.length) (hwidth : width < uint32Size)
    (hpos : 0 < width) :
    adaptedIndex bits ((count + (uint32Size - 1)) % uint32Size) = bits.length - count ∧
      adaptedIndex bits
          (((count + (uint32Size - 1)) % uint32Size + (uint32Size - (width - 1))) % uint32Size) =
        (bits.length - count + (width - 1)) % uint32Size := by
  unfold adaptedIndex
  unfold uint32Size at *
  omega

theorem adapted_beyond (hbits : bits.length < uint32Size) (hcount : count < uint32Size)
    (hpos : 0 < bits.length) (hlacks : count = 0 ∨ bits.length < count) :
    bits.length ≤ adaptedIndex bits ((count + (uint32Size - 1)) % uint32Size) := by
  unfold adaptedIndex
  unfold uint32Size at *
  omega

theorem range_width {left right : Nat}
    (hwidth : width = (if left > right then left - right else right - left) + 1)
    (hlt : width < uint32Size) : IndexedRange.width ⟨left, right⟩ = .ok width := by
  simp only [IndexedRange.width, Nat.add_comm 1, ← hwidth, Nat.mod_eq_of_lt hlt]
  rw [if_neg (by omega)]

theorem getSlice_upto (hpos : 0 < bits.length) {left right : Nat}
    (hrange : IndexedRange.width ⟨left, right⟩ = .ok width) :
    getSlice ⟨left, right⟩ .upto bits = bits.slice left width := by
  rw [getSlice, if_neg (List.ne_nil_of_length_pos hpos), if_pos rfl, hrange]
  rfl

theorem getSlice_downto (hpos : 0 < bits.length) (hordering : ordering ≠ .upto) {left right : Nat}
    (hrange : IndexedRange.width ⟨adaptedIndex bits left, adaptedIndex bits right⟩ = .ok width) :
    getSlice ⟨left, right⟩ ordering bits = bits.slice (adaptedIndex bits left) width := by
  rw [getSlice, if_neg (List.ne_nil_of_length_pos hpos), if_neg hordering]
  simp only [hrange]
  rfl

/-- A range that starts behind the value is out of range, whatever its width. -/
theorem getSlice_beyond (hpos : 0 < bits.length) (hordering : ordering ≠ .upto) {left : Nat}
    (right : Nat) (hbeyond : bits.length ≤ adaptedIndex bits left) :
    ∃ fault, fault ≠ .undefinedBehaviour ∧
      getSlice ⟨left, right⟩ ordering bits = .error fault := by
  rcases IndexedRange.width_cases ⟨adaptedIndex bits left, adaptedIndex bits right⟩ with
    ⟨fault, hdefined, hrange⟩ | ⟨width, hwidth, -, hrange, -⟩
  · refine ⟨fault, hdefined, ?_⟩
    rw [getSlice, if_neg (List.ne_nil_of_length_pos hpos), if_neg hordering]
    simp only [hrange]
    rfl
  · rw [getSlice_downto hpos hordering hrange]
    exact Bits.slice_rejects (by omega) (.inl hbeyond)

variable (hpos : 0 < bits.length) (hbits : bits.length + 7 < uint32Size)
  (hcount : count < uint32Size) (hwidthPos : 0 < width) (hwidth : width < uint32Size)

include hpos hbits hcount hwidthPos hwidth

theorem getSlice_lacks (hlacks : LacksFirst ordering bits.length count width) :
    (∃ fault, fault ≠ .undefinedBehaviour ∧
        getSlice (firstRange ordering count width) ordering bits = .error fault) ∨
      ∃ result, getSlice (firstRange ordering count width) ordering bits = .ok result ∧
        result.length ≠ width := by
  unfold LacksFirst at hlacks
  unfold firstRange firstLeft rightEnd
  by_cases hupto : ordering = .upto
  · subst hupto
    rw [if_pos rfl] at hlacks
    have hright : (0 + (width - 1)) % uint32Size = width - 1 := by
      rw [Nat.zero_add, Nat.mod_eq_of_lt (by omega)]
    have hrange : IndexedRange.width ⟨0, width - 1⟩ = .ok width :=
      range_width (by simp; omega) hwidth
    rw [if_pos rfl, if_pos rfl, hright, getSlice_upto hpos hrange]
    refine .inl (Bits.slice_rejects (by omega) (.inr ?_))
    rwa [Nat.zero_add, Nat.mod_eq_of_lt hwidth]
  · rw [if_neg hupto] at hlacks
    rw [if_neg hupto, if_neg hupto]
    by_cases hbeyond : count = 0 ∨ bits.length < count
    · exact .inl (getSlice_beyond hpos hupto _ (adapted_beyond (by omega) hcount hpos hbeyond))
    · push Not at hbeyond
      have hwraps := (hlacks.resolve_left hbeyond.1).resolve_left (by omega)
      obtain ⟨hleft, hright⟩ := adapted_first (by omega) hcount (by omega) hbeyond.2 hwidth hwidthPos
      obtain ⟨hnarrow, hshort | ⟨hsum, hfew⟩⟩ := hwraps
      · replace hright := hright.trans (Nat.mod_eq_of_lt (by omega))
        have hrange : IndexedRange.width ⟨bits.length - count, bits.length - count + (width - 1)⟩ =
            .ok width := range_width (by split <;> omega) hwidth
        rw [getSlice_downto hpos hupto (by rw [hleft, hright]; exact hrange), hleft]
        refine .inl (Bits.slice_rejects (by omega) (.inr ?_))
        rw [Nat.mod_eq_of_lt hshort]
        omega
      · have hwrapped : (bits.length - count + (width - 1)) % uint32Size =
            bits.length - count + width - 1 - uint32Size := by
          rw [Nat.mod_eq_sub_mod (by omega), Nat.mod_eq_of_lt (by omega)]
          omega
        replace hright := hright.trans hwrapped
        have hrange : IndexedRange.width ⟨bits.length - count,
            bits.length - count + width - 1 - uint32Size⟩ = .ok (uint32Size + 2 - width) :=
          range_width (by split <;> omega) (by omega)
        rw [getSlice_downto hpos hupto (by rw [hleft, hright]; exact hrange), hleft]
        by_cases hin : bits.length - count + (uint32Size + 2 - width) ≤ bits.length
        · refine .inr ⟨_, Bits.slice_eq (by omega) hin, ?_⟩
          rw [List.length_take, List.length_drop]
          omega
        · refine .inl (Bits.slice_rejects (by omega) (.inr ?_))
          rw [Nat.mod_eq_of_lt (by omega)]
          omega

theorem getSlice_has (hlacks : ¬LacksFirst ordering bits.length count width) :
    (¬(ordering = .upto ∨ width ≤ count) ∧
        getSlice (firstRange ordering count width) ordering bits = .error .undefinedBehaviour) ∨
      (ordering = .upto ∨ width ≤ count) ∧
        ∃ result, getSlice (firstRange ordering count width) ordering bits = .ok result ∧
          result.length = width := by
  unfold LacksFirst at hlacks
  unfold firstRange firstLeft rightEnd
  by_cases hupto : ordering = .upto
  · subst hupto
    rw [if_pos rfl] at hlacks
    have hright : (0 + (width - 1)) % uint32Size = width - 1 := by
      rw [Nat.zero_add, Nat.mod_eq_of_lt (by omega)]
    have hrange : IndexedRange.width ⟨0, width - 1⟩ = .ok width :=
      range_width (by simp; omega) hwidth
    rw [if_pos rfl, if_pos rfl, hright, getSlice_upto hpos hrange]
    refine .inr ⟨.inl rfl, _, Bits.slice_eq (by omega) (show 0 + width ≤ bits.length by omega), ?_⟩
    rw [List.length_take, List.length_drop]
    omega
  · rw [if_neg hupto] at hlacks
    rw [if_neg hupto, if_neg hupto]
    push Not at hlacks
    obtain ⟨hsome, hle, hnarrow⟩ := hlacks
    obtain ⟨hleft, hright⟩ := adapted_first (by omega) hcount (by omega) hle hwidth hwidthPos
    by_cases hsum : bits.length - count + width ≤ uint32Size
    · replace hright := hright.trans (Nat.mod_eq_of_lt (by omega))
      have hrange : IndexedRange.width ⟨bits.length - count, bits.length - count + (width - 1)⟩ =
          .ok width := range_width (by split <;> omega) hwidth
      rw [getSlice_downto hpos hupto (by rw [hleft, hright]; exact hrange), hleft]
      by_cases hin : width ≤ count
      · refine .inr ⟨.inr hin, _, Bits.slice_eq (by omega)
          (show bits.length - count + width ≤ bits.length by omega), ?_⟩
        rw [List.length_take, List.length_drop]
        omega
      · have hover := (hnarrow (by omega)).1
        exact .inl ⟨not_or.mpr ⟨hupto, hin⟩, Bits.slice_undefined hbits hwidth (by omega) hover⟩
    · have hwrapped : (bits.length - count + (width - 1)) % uint32Size =
          bits.length - count + width - 1 - uint32Size := by
        rw [Nat.mod_eq_sub_mod (by omega), Nat.mod_eq_of_lt (by omega)]
        omega
      have hmany := (hnarrow (by omega)).2 (by omega)
      replace hright := hright.trans hwrapped
      have hrange : IndexedRange.width ⟨bits.length - count,
          bits.length - count + width - 1 - uint32Size⟩ = .ok (uint32Size + 2 - width) :=
        range_width (by split <;> omega) (by omega)
      rw [getSlice_downto hpos hupto (by rw [hleft, hright]; exact hrange), hleft]
      exact .inl ⟨not_or.mpr ⟨hupto, by omega⟩,
        Bits.slice_undefined hbits (by omega) (by omega) (by omega)⟩

end First

/-! ### The first slice of a register -/

section Register

variable {range : IndexedRange} {ordering : BitsOrdering} {bits value : Bits}

/-- A range whose ends lie within a register, in whatever direction, has its width. -/
theorem width_of_in {width : Nat} (hin : max range.left range.right < width)
    (hwidth : width < uint32Size) : range.width = .ok range.count := by
  apply range_width
  · unfold IndexedRange.count
    split <;> rfl
  · unfold IndexedRange.count
    split <;> omega

theorem offset_lt {width : Nat} (hin : max range.left range.right < width) :
    range.offset ordering width < width := by
  unfold IndexedRange.offset
  split <;> omega

variable (hin : max range.left range.right < bits.length)

include hin

theorem setSlice_of_in (hbits : bits.length < uint32Size) (value : Bits) :
    setSlice range ordering bits value =
      if range.count ≠ value.length then
        .error (.runtimeError "Expected range width to be equal to value width")
      else bits.setSlice (range.offset ordering bits.length) value := by
  have hoffset : (if ordering = .upto then range.left else adaptedIndex bits range.left) =
      range.offset ordering bits.length := by
    unfold IndexedRange.offset
    split
    · rfl
    · exact adaptedIndex_eq hbits (by omega)
  rw [setSlice, if_neg (List.ne_nil_of_length_pos (by omega)), width_of_in hin hbits, hoffset]
  by_cases hsame : range.count ≠ value.length
  · simp only [if_pos hsame, bind, Except.bind, throw, throwThe, MonadExceptOf.throw]
  · simp only [if_neg hsame, bind, Except.bind]

theorem setSlice_refuses (hbits : bits.length < uint32Size)
    (hrefuses : value.length ≠ range.count ∨
      bits.length < range.offset ordering bits.length + range.count ∧
        range.offset ordering bits.length + range.count < uint32Size) :
    ∃ fault, fault ≠ .undefinedBehaviour ∧ setSlice range ordering bits value = .error fault := by
  rw [setSlice_of_in hin hbits]
  by_cases hsame : range.count ≠ value.length
  · rw [if_pos hsame]
    exact ⟨_, by simp, rfl⟩
  · rw [if_neg hsame]
    obtain ⟨hout, hsmall⟩ := hrefuses.resolve_left fun hother => hsame (Ne.symm hother)
    apply Bits.setSlice_rejects hbits
    right
    rwa [← not_not.mp hsame, Nat.mod_eq_of_lt hsmall]

theorem setSlice_accepts (hbits : bits.length + 7 < uint32Size) (hvalue : value.length = range.count)
    (hrefuses : ¬(bits.length < range.offset ordering bits.length + range.count ∧
        range.offset ordering bits.length + range.count < uint32Size)) :
    setSlice range ordering bits value = .error .undefinedBehaviour ∨
      range.offset ordering bits.length + range.count ≤ bits.length ∧
        setSlice range ordering bits value =
          .ok (BitPacking.splice bits (range.offset ordering bits.length) value) := by
  have hpos := @IndexedRange.count_pos range
  have hcount : range.count < uint32Size := by
    unfold IndexedRange.count
    split <;> omega
  rw [setSlice_of_in hin (by omega), if_neg (not_not.mpr hvalue.symm)]
  by_cases hfits : range.offset ordering bits.length + range.count ≤ bits.length
  · exact .inr ⟨hfits, Bits.setSlice_eq (by omega) (by omega) (by omega)⟩
  · exact .inl (Bits.setSlice_undefined hbits (by omega) (offset_lt hin) (by omega))

end Register

/-! ### Refusing a value -/

/-- The call has thrown and left the registers of the slices as they were. -/
def Refused (v : VirtualRegister) (s : SystemModel) (outcome : Attempt Fault SystemModel) : Prop :=
  (∃ fault, outcome.fault = some fault ∧ fault ≠ .undefinedBehaviour) ∧
    ∀ slice ∈ v, outcome.state.registers slice.reg = s.registers slice.reg

/-- No value of the given length is written, not even in part. -/
def RefusesWidth (v : VirtualRegister) (s : SystemModel) (length : Nat) : Prop :=
  ∀ sequence : Bits, sequence.length = length →
    v.Refused s (v.attemptSetToSut sequence s) ∧
      ∀ dontCareMask, v.Refused s (v.attemptSetExpectedFromSut sequence dontCareMask s)

/-- The first slice, which runs against the ordering, is out of the range of its register. The value has bits for it. -/
def ExceedsRegister (range : IndexedRange) (r : Register) (count : Nat) : Prop :=
  (r.bitsOrdering = .upto ∨ range.count ≤ count) ∧
    r.bitsCount < range.offset r.bitsOrdering r.bitsCount + range.count ∧
      range.offset r.bitsOrdering r.bitsCount + range.count < uint32Size

/-- There is nothing to write, or the first slice is out of the range of the value or of its register. -/
def RefusesFirst (s : SystemModel) (length : Nat) : VirtualRegister → Prop
  | [] => False
  | slice :: rest =>
    let count := totalWidth (slice :: rest) % uint32Size
    length = 0 ∨
      LacksFirst (s.registers slice.reg).bitsOrdering length count slice.range.count ∨
      ExceedsRegister slice.range (s.registers slice.reg) count

section Refusing

variable {registerUpdater : RegisterSlice → IndexedRange → SystemModel → Except Fault SystemModel}
  {s : SystemModel} {slice : RegisterSlice} {rest : VirtualRegister} {count : Nat}

theorem refused_of_error {v : VirtualRegister} {fault : Fault} (hfault : fault ≠ .undefinedBehaviour) :
    v.Refused s ⟨s, some fault⟩ :=
  ⟨⟨fault, rfl, hfault⟩, fun _ _ => rfl⟩

/-- The loop starts with the first range. -/
theorem attemptUpdateRegisters_eq (hcount : bitsCount (slice :: rest) = .ok count) :
    attemptUpdateRegisters registerUpdater (slice :: rest) s =
      (attempt (updateStep registerUpdater (s.registers slice.reg).bitsOrdering) (slice :: rest)
        (firstLeft (s.registers slice.reg).bitsOrdering count, s)).map Prod.snd := by
  have hfirst : bitsOrdering (slice :: rest) s = (s.registers slice.reg).bitsOrdering := rfl
  rw [attemptUpdateRegisters, if_neg (List.cons_ne_nil _ _), hfirst, firstLeft]
  by_cases hupto : (s.registers slice.reg).bitsOrdering = .upto
  · rw [if_pos hupto, if_pos hupto, hupto]
  · rw [if_neg hupto, if_neg hupto, hcount]

/-- A fault of the first update is the fault of the call. -/
theorem attemptUpdateRegisters_error (hcount : bitsCount (slice :: rest) = .ok count)
    (hwidth : slice.range.width = .ok slice.range.count) {fault : Fault}
    (hupdate : registerUpdater slice
      (firstRange (s.registers slice.reg).bitsOrdering count slice.range.count) s = .error fault) :
    attemptUpdateRegisters registerUpdater (slice :: rest) s = ⟨s, some fault⟩ := by
  have hstep := updateStep_eq registerUpdater (s.registers slice.reg).bitsOrdering
    (firstLeft (s.registers slice.reg).bitsOrdering count) s hwidth
  rw [show registerUpdater slice ⟨_, _⟩ s = _ from hupdate] at hstep
  rw [attemptUpdateRegisters_eq hcount, Attempt.attempt_error hstep]
  rfl

/-- What every update keeps once the first one is made holds of the state that the call leaves. -/
theorem attemptUpdateRegisters_keeps (hcount : bitsCount (slice :: rest) = .ok count)
    (hwidth : slice.range.width = .ok slice.range.count) {P : SystemModel → Prop} {s' : SystemModel}
    (hupdate : registerUpdater slice
      (firstRange (s.registers slice.reg).bitsOrdering count slice.range.count) s = .ok s')
    (hkeeps : ∀ slice range {s s'}, registerUpdater slice range s = .ok s' → P s → P s')
    (hs' : P s') : P (attemptUpdateRegisters registerUpdater (slice :: rest) s).state := by
  have hstep := updateStep_eq registerUpdater (s.registers slice.reg).bitsOrdering
    (firstLeft (s.registers slice.reg).bitsOrdering count) s hwidth
  rw [show registerUpdater slice ⟨_, _⟩ s = _ from hupdate] at hstep
  rw [attemptUpdateRegisters_eq hcount, Attempt.attempt_ok hstep]
  have hloop : ∀ other ∈ rest, ∀ {t t' : Nat × SystemModel},
      updateStep registerUpdater (s.registers slice.reg).bitsOrdering other t = .ok t' →
        (fun t : Nat × SystemModel => P t.2) t → (fun t : Nat × SystemModel => P t.2) t' := by
    intro other _ t t' hother ht
    obtain ⟨width, -, hother⟩ := bind_eq_ok.mp hother
    obtain ⟨between, hregister, hother⟩ := bind_eq_ok.mp hother
    obtain rfl := Except.ok.inj hother
    exact hkeeps other _ hregister ht
  exact Attempt.attempt_keeps hloop hs'

end Refusing

/-! ### The first register -/

/-- The first slice lies within its register, whose vectors have its width. -/
structure First (s : SystemModel) (slice : RegisterSlice) (rest : VirtualRegister) (count : Nat) :
    Prop where
  sized : (s.registers slice.reg).Sized (s.registers slice.reg).bitsCount
  within : max slice.range.left slice.range.right < (s.registers slice.reg).bitsCount
  bitsCount : bitsCount (slice :: rest) = .ok count
  count_lt : count < uint32Size

section First

variable {s : SystemModel} {slice : RegisterSlice} {rest : VirtualRegister} {count : Nat}
  {sequence dontCareMask : Bits} (hfirst : First s slice rest count)

include hfirst

theorem First.width : slice.range.width = .ok slice.range.count := by
  have hvectors := hfirst.sized.reads.vectors
  exact width_of_in hfirst.within (by omega)

theorem First.width_lt : slice.range.count < uint32Size := by
  have hvectors := hfirst.sized.reads.vectors
  have hin := hfirst.within
  unfold IndexedRange.count
  split <;> omega

theorem First.refuses (hpos : 0 < sequence.length) (hsequence : sequence.length + 7 < uint32Size)
    (hrefuses : LacksFirst (s.registers slice.reg).bitsOrdering sequence.length count
        slice.range.count ∨
      ExceedsRegister slice.range (s.registers slice.reg) count) :
    (∃ fault, fault ≠ .undefinedBehaviour ∧
        getSlice (firstRange (s.registers slice.reg).bitsOrdering count slice.range.count)
          (s.registers slice.reg).bitsOrdering sequence = .error fault) ∨
      ∃ sliced, getSlice (firstRange (s.registers slice.reg).bitsOrdering count slice.range.count)
          (s.registers slice.reg).bitsOrdering sequence = .ok sliced ∧
        ∀ {bits : Bits}, bits.length = (s.registers slice.reg).bitsCount →
          ∃ fault, fault ≠ .undefinedBehaviour ∧
            setSlice slice.range (s.registers slice.reg).bitsOrdering bits sliced =
              .error fault := by
  have hvectors := hfirst.sized.reads.vectors
  have hin := hfirst.within
  have hwidth := hfirst.width_lt
  by_cases hnone : LacksFirst (s.registers slice.reg).bitsOrdering sequence.length count
    slice.range.count
  · rcases getSlice_lacks hpos hsequence hfirst.count_lt IndexedRange.count_pos hwidth hnone with
      hthrows | ⟨sliced, hslice, hother⟩
    · exact .inl hthrows
    · refine .inr ⟨sliced, hslice, fun {bits} hbits => ?_⟩
      exact setSlice_refuses (by rw [hbits]; exact hin) (by omega) (.inl hother)
  · obtain ⟨hbits, hout⟩ := hrefuses.resolve_left hnone
    rcases getSlice_has hpos hsequence hfirst.count_lt IndexedRange.count_pos hwidth hnone with
      ⟨hnobits, -⟩ | ⟨-, sliced, hslice, -⟩
    · exact absurd hbits hnobits
    · refine .inr ⟨sliced, hslice, fun {bits} hlength => ?_⟩
      rw [← hlength] at hin hout
      exact setSlice_refuses hin (by omega) (.inr hout)

theorem First.setToSut_refuses (hpos : 0 < sequence.length)
    (hsequence : sequence.length + 7 < uint32Size)
    (hrefuses : LacksFirst (s.registers slice.reg).bitsOrdering sequence.length count
        slice.range.count ∨
      ExceedsRegister slice.range (s.registers slice.reg) count) :
    ∃ fault, fault ≠ .undefinedBehaviour ∧ updateRegister slice
      (firstRange (s.registers slice.reg).bitsOrdering count slice.range.count) sequence s =
        .error fault := by
  rcases hfirst.refuses hpos hsequence hrefuses with
    ⟨fault, hdefined, hslice⟩ | ⟨sliced, hslice, hset⟩
  · exact ⟨fault, hdefined, by simp only [updateRegister, hslice, bind, Except.bind]⟩
  · obtain ⟨fault, hdefined, hset⟩ := hset hfirst.sized.hasWidth.nextToSut
    exact ⟨fault, hdefined, by simp only [updateRegister, hslice, hset, bind, Except.bind]⟩

theorem First.setExpectedFromSut_refuses (hpos : 0 < sequence.length)
    (hsequence : sequence.length + 7 < uint32Size)
    (hrefuses : LacksFirst (s.registers slice.reg).bitsOrdering sequence.length count
        slice.range.count ∨
      ExceedsRegister slice.range (s.registers slice.reg) count) :
    ∃ fault, fault ≠ .undefinedBehaviour ∧ updateExpected sequence slice
      (firstRange (s.registers slice.reg).bitsOrdering count slice.range.count) s =
        .error fault := by
  rcases hfirst.refuses hpos hsequence hrefuses with
    ⟨fault, hdefined, hslice⟩ | ⟨sliced, hslice, hset⟩
  · exact ⟨fault, hdefined, by simp only [updateExpected, hslice, bind, Except.bind]⟩
  · obtain ⟨fault, hdefined, hset⟩ := hset hfirst.sized.reads.expected
    exact ⟨fault, hdefined, by simp only [updateExpected, hslice, hset, bind, Except.bind]⟩

theorem First.setExpectedFromSut_masked_refuses (hpos : 0 < sequence.length)
    (hsequence : sequence.length + 7 < uint32Size) (hmask : dontCareMask.length = sequence.length)
    (hrefuses : LacksFirst (s.registers slice.reg).bitsOrdering sequence.length count
        slice.range.count ∨
      ExceedsRegister slice.range (s.registers slice.reg) count) :
    ∃ fault, fault ≠ .undefinedBehaviour ∧ updateExpectedAndMask sequence dontCareMask slice
      (firstRange (s.registers slice.reg).bitsOrdering count slice.range.count) s =
        .error fault := by
  obtain ⟨regMask, hregMask, -⟩ := hfirst.sized.validDontCareMask
  rcases hfirst.refuses hpos hsequence hrefuses with
    ⟨fault, hdefined, hslice⟩ | ⟨sliced, hslice, hset⟩
  · exact ⟨fault, hdefined, by
      simp only [updateExpectedAndMask, hregMask, hslice, bind, Except.bind]⟩
  · obtain ⟨fault, hdefined, hset⟩ := hset hfirst.sized.reads.expected
    rw [← hmask] at hpos hsequence hrefuses
    -- the mask is as long as the sequence, so that it can be sliced or is out of range
    rcases hfirst.refuses hpos hsequence hrefuses with
      ⟨fault', hdefined', hslicedMask⟩ | ⟨slicedMask, hslicedMask, -⟩
    · exact ⟨fault', hdefined', by
        simp only [updateExpectedAndMask, hregMask, hslice, hslicedMask, bind, Except.bind]⟩
    · exact ⟨fault, hdefined, by
        simp only [updateExpectedAndMask, hregMask, hslice, hslicedMask, hset, bind, Except.bind]⟩

theorem First.refusesWidth {length : Nat} (hlength : length + 7 < uint32Size)
    (hrefuses : length = 0 ∨
      LacksFirst (s.registers slice.reg).bitsOrdering length count slice.range.count ∨
      ExceedsRegister slice.range (s.registers slice.reg) count) :
    RefusesWidth (slice :: rest) s length := by
  intro sequence hsequence
  subst hsequence
  have hsome : slice :: rest ≠ [] := List.cons_ne_nil _ _
  by_cases hnone : sequence = []
  · subst hnone
    refine ⟨?_, fun dontCareMask => ?_⟩
    · rw [attemptSetToSut, if_pos rfl]
      exact refused_of_error (by simp)
    · rw [attemptSetExpectedFromSut]
      by_cases hmask : dontCareMask = []
      · rw [if_pos hmask, attemptUpdateRegisters_error hfirst.bitsCount hfirst.width rfl]
        exact refused_of_error (by simp)
      · have hsizes : dontCareMask.length ≠ ([] : Bits).length := fun hempty =>
          hmask (List.length_eq_zero_iff.mp hempty)
        rw [if_neg hmask, if_pos hsizes]
        exact refused_of_error (by simp)
  · have hpos := List.length_pos_of_ne_nil hnone
    have hrefuses := hrefuses.resolve_left (by omega)
    refine ⟨?_, fun dontCareMask => ?_⟩
    · obtain ⟨fault, hdefined, hupdate⟩ := hfirst.setToSut_refuses hpos hlength hrefuses
      rw [attemptSetToSut, if_neg hnone, if_neg hsome,
        attemptUpdateRegisters_error hfirst.bitsCount hfirst.width hupdate]
      exact refused_of_error hdefined
    · rw [attemptSetExpectedFromSut]
      by_cases hmask : dontCareMask = []
      · obtain ⟨fault, hdefined, hupdate⟩ := hfirst.setExpectedFromSut_refuses hpos hlength hrefuses
        rw [if_pos hmask, attemptUpdateRegisters_error hfirst.bitsCount hfirst.width hupdate]
        exact refused_of_error hdefined
      · rw [if_neg hmask]
        by_cases hsizes : dontCareMask.length ≠ sequence.length
        · rw [if_pos hsizes]
          exact refused_of_error (by simp)
        · obtain ⟨fault, hdefined, hupdate⟩ := hfirst.setExpectedFromSut_masked_refuses hpos hlength
            (not_not.mp hsizes) hrefuses
          rw [if_neg hsizes, attemptUpdateRegisters_error hfirst.bitsCount hfirst.width hupdate]
          exact refused_of_error hdefined

/-! ### A value of one bit, repeated -/

omit hfirst in
theorem mem_of_getSlice {range : IndexedRange} {ordering : BitsOrdering} {bits result : Bits}
    (hbits : bits.length + 7 < uint32Size) (hslice : getSlice range ordering bits = .ok result)
    {bit : Bool} (hbit : bit ∈ result) : bit ∈ bits := by
  unfold getSlice at hslice
  split at hslice
  · cases hslice
  · split at hslice
    · obtain ⟨width, -, hslice⟩ := bind_eq_ok.mp hslice
      exact Bits.mem_of_slice hbits hslice hbit
    · obtain ⟨width, -, hslice⟩ := bind_eq_ok.mp hslice
      exact Bits.mem_of_slice hbits hslice hbit

omit hfirst in
theorem setSlice_ok {range : IndexedRange} {ordering : BitsOrdering} {bits value result : Bits}
    (hset : setSlice range ordering bits value = .ok result) :
    ∃ startOffset, bits.setSlice startOffset value = .ok result := by
  unfold setSlice at hset
  split at hset
  · cases hset
  · obtain ⟨width, -, hset⟩ := bind_eq_ok.mp hset
    by_cases hsame : width ≠ value.length
    · simp only [if_pos hsame] at hset
      cases hset
    · simp only [if_neg hsame] at hset
      exact ⟨_, hset⟩

/-- The next value to send of a register has the given length and, at the offset, the given bit. -/
def SendsBit (reg length offset : Nat) (bit : Bool) (s : SystemModel) : Prop :=
  (s.registers reg).nextToSut.length = length ∧ (s.registers reg).nextToSut[offset]? = some bit

omit hfirst in
/-- An update with bits that are all the same keeps a bit that already is that one. -/
theorem updateRegister_keepsBit {reg length offset size : Nat} {bit : Bool}
    (hlength : length < uint32Size) (hsize : size + 7 < uint32Size) (other : RegisterSlice)
    (range : IndexedRange) {s s' : SystemModel}
    (hupdate : updateRegister other range (List.replicate size bit) s = .ok s')
    (hs : SendsBit reg length offset bit s) : SendsBit reg length offset bit s' := by
  obtain ⟨sliced, hslice, hupdate⟩ := bind_eq_ok.mp hupdate
  obtain ⟨regValue, hset, hupdate⟩ := bind_eq_ok.mp hupdate
  obtain ⟨r', hr', hupdate⟩ := bind_eq_ok.mp hupdate
  obtain rfl := Except.ok.inj hupdate
  have hnext : r'.nextToSut = regValue := by
    unfold Register.setToSut at hr'
    split at hr'
    · obtain rfl := Except.ok.inj hr'
      rfl
    · cases hr'
  by_cases hreg : reg = other.reg
  · subst hreg
    obtain ⟨hcurrent, hbit⟩ := hs
    have hsame : ∀ written ∈ sliced, written = bit := fun written hwritten =>
      List.eq_of_mem_replicate (mem_of_getSlice (by rwa [List.length_replicate]) hslice hwritten)
    obtain ⟨startOffset, hset⟩ := setSlice_ok hset
    rw [SendsBit, SystemModel.setRegister_self, hnext]
    refine ⟨(Bits.setSlice_length (by omega) hset).trans hcurrent, ?_⟩
    rcases Bits.setSlice_getElem? (by omega) hset hbit with hkept | ⟨written, hmem, hwritten⟩
    · exact hkept
    · rwa [hsame written hmem] at hwritten
  · rw [SendsBit, SystemModel.setRegister_other _ _ hreg]
    exact hs

theorem First.updateRegister_accepts (hpos : sequence.length ≠ 0)
    (hsequence : sequence.length + 7 < uint32Size)
    (hhas : ¬LacksFirst (s.registers slice.reg).bitsOrdering sequence.length count
      slice.range.count)
    (hfits : ¬ExceedsRegister slice.range (s.registers slice.reg) count) :
    updateRegister slice (firstRange (s.registers slice.reg).bitsOrdering count slice.range.count)
        sequence s = .error .undefinedBehaviour ∨
      ∃ sliced r', updateRegister slice
          (firstRange (s.registers slice.reg).bitsOrdering count slice.range.count) sequence s =
            .ok (s.setRegister slice.reg r') ∧
        sliced.length = slice.range.count ∧ (∀ bit ∈ sliced, bit ∈ sequence) ∧
        slice.range.offset (s.registers slice.reg).bitsOrdering
            (s.registers slice.reg).nextToSut.length + slice.range.count ≤
          (s.registers slice.reg).nextToSut.length ∧
        r'.nextToSut = (BitPacking.splice (s.registers slice.reg).nextToSut
          (slice.range.offset (s.registers slice.reg).bitsOrdering
            (s.registers slice.reg).nextToSut.length) sliced) ∧
        r'.nextToSut.length = (s.registers slice.reg).nextToSut.length := by
  have hvectors := hfirst.sized.reads.vectors
  have hcurrent := hfirst.sized.hasWidth.nextToSut
  have hin := hfirst.within
  rcases getSlice_has (by omega) hsequence hfirst.count_lt IndexedRange.count_pos hfirst.width_lt
    hhas with ⟨-, hslice⟩ | ⟨hbits, sliced, hslice, hwidth⟩
  · -- the value is read past its end
    exact .inl (by simp only [updateRegister, hslice, bind, Except.bind])
  · have hfits := fun hout => hfits ⟨hbits, hout⟩
    rw [← hcurrent] at hin hfits hvectors
    rcases setSlice_accepts hin hvectors hwidth hfits with hset | ⟨hinside, hset⟩
    · -- the register is written past its end
      exact .inl (by simp only [updateRegister, hslice, hset, bind, Except.bind])
    · obtain ⟨startOffset, hbitsSet⟩ := setSlice_ok hset
      have hlength := Bits.setSlice_length (by omega) hbitsSet
      obtain ⟨r', hr', hnext, -⟩ := Register.setToSut_ok hlength
      refine .inr ⟨sliced, r', ?_, hwidth, fun bit => mem_of_getSlice hsequence hslice, hinside,
        hnext, by rw [hnext, hlength]⟩
      simp only [updateRegister, hslice, hset, hr', bind, Except.bind, pure, Except.pure]

/-- A value whose first slice can be written changes its register, if all its bits are other than the first one that is replaced. -/
theorem First.not_refusesWidth {length : Nat} (hlength : length + 7 < uint32Size)
    (haccepts : ¬(length = 0 ∨
      LacksFirst (s.registers slice.reg).bitsOrdering length count slice.range.count ∨
      ExceedsRegister slice.range (s.registers slice.reg) count)) :
    ¬RefusesWidth (slice :: rest) s length := by
  push Not at haccepts
  obtain ⟨hpos, hhas, hfits⟩ := haccepts
  have hvectors := hfirst.sized.reads.vectors
  have hcurrent := hfirst.sized.hasWidth.nextToSut
  have hwidthPos := @IndexedRange.count_pos slice.range
  generalize hoffset : slice.range.offset (s.registers slice.reg).bitsOrdering
    (s.registers slice.reg).nextToSut.length = offset
  have hlt : offset < (s.registers slice.reg).nextToSut.length := by
    rw [← hoffset, hcurrent]
    exact offset_lt hfirst.within
  generalize hold : (s.registers slice.reg).nextToSut[offset] = old
  have hread : (s.registers slice.reg).nextToSut[offset]? = some old := by
    rw [List.getElem?_eq_getElem hlt, hold]
  have hsequence : (List.replicate length !old).length = length := List.length_replicate
  have hnone : List.replicate length (!old) ≠ [] := List.ne_nil_of_length_pos (by omega)
  intro hrefuses
  obtain ⟨⟨⟨fault, hfault, hdefined⟩, hkept⟩, -⟩ := hrefuses _ hsequence
  replace hkept := hkept slice List.mem_cons_self
  rw [attemptSetToSut, if_neg hnone, if_neg (List.cons_ne_nil _ _)] at hfault hkept
  rw [← hsequence] at hpos hlength hhas
  rcases hfirst.updateRegister_accepts hpos hlength hhas hfits with
    hupdate | ⟨sliced, r', hupdate, hwidth, hbits, hend, hnext, hnextLength⟩
  · rw [attemptUpdateRegisters_error hfirst.bitsCount hfirst.width hupdate] at hfault
    exact hdefined (Option.some.inj hfault).symm
  · have hwritten : r'.nextToSut[offset]? = some (!old) := by
      have hinside : offset ≤ offset ∧ offset < offset + sliced.length := by omega
      rw [hoffset, ← hwidth] at hend
      rw [hnext, hoffset, BitPacking.splice_getElem? hend, if_pos hinside, Nat.sub_self,
        List.getElem?_eq_getElem (show 0 < sliced.length by omega)]
      rw [List.eq_of_mem_replicate (hbits _ (List.getElem_mem _))]
    have hsent : SendsBit slice.reg (s.registers slice.reg).nextToSut.length offset (!old)
        (s.setRegister slice.reg r') := by
      rw [SendsBit, SystemModel.setRegister_self]
      exact ⟨hnextLength, hwritten⟩
    have hsmall : (s.registers slice.reg).nextToSut.length < uint32Size := by omega
    have hleft := attemptUpdateRegisters_keeps hfirst.bitsCount hfirst.width hupdate
      (fun other range => updateRegister_keepsBit hsmall (hsequence ▸ hlength) other range) hsent
    have hcontra := hleft.2
    rw [hkept, hread] at hcontra
    cases old <;> cases hcontra

end First

/-- A virtual register refuses all values of a width exactly when it refuses the first slice of them, be the width the wrong one or not. -/
theorem refusesWidth_iff {s : SystemModel} {v : VirtualRegister} {slices : List RegisterSlice}
    {length : Nat} (hbuilt : ofSlices s slices = .ok v)
    (hsized : ∀ slice ∈ v, (s.registers slice.reg).Sized (s.registers slice.reg).bitsCount)
    (hlength : length + 7 < uint32Size) :
    v.RefusesWidth s length ↔ RefusesFirst s length v := by
  obtain ⟨-, ordering, hv⟩ := ofSlices_ok hbuilt
  have hwidths : ∀ slice ∈ v, slice.range.width = .ok slice.range.count := fun slice hslice => by
    have hvectors := (hsized slice hslice).reads.vectors
    exact width_of_in (hv.within slice hslice) (by omega)
  cases v with
  | nil =>
    -- without a register there is no first one
    refine iff_of_false (fun hrefuses => ?_) id
    obtain ⟨-, hexpected⟩ := hrefuses (List.replicate length false) List.length_replicate
    obtain ⟨⟨fault, hfault, hdefined⟩, -⟩ := hexpected []
    exact hdefined (Option.some.inj hfault).symm
  | cons slice rest =>
    have hfirst : First s slice rest (totalWidth (slice :: rest) % uint32Size) :=
      ⟨hsized slice List.mem_cons_self, hv.within slice List.mem_cons_self,
        bitsCount_total hwidths, Nat.mod_lt _ (by decide)⟩
    constructor
    · intro hrefuses
      by_contra hnot
      exact hfirst.not_refusesWidth hlength hnot hrefuses
    · intro hrefuses
      exact hfirst.refusesWidth hlength hrefuses

theorem twoRegisters_sized {first second : Bits} (hfirst : first.length + 7 < uint32Size)
    (hsecond : second.length + 7 < uint32Size) (ordering : BitsOrdering) (reg : Nat) :
    ((twoRegisters first second ordering).registers reg).Sized
      ((twoRegisters first second ordering).registers reg).bitsCount := by
  unfold twoRegisters
  dsimp only
  split
  · exact Register.create_sized "first" false ordering hfirst
  · exact Register.create_sized "second" false ordering hsecond

theorem refusesWidth_interleaved :
    RefusesWidth interleaved (twoRegisters [false, true, false] [true, false] .downto) 3 ↔
      RefusesFirst (twoRegisters [false, true, false] [true, false] .downto) 3 interleaved :=
  have hbuilt : ofSlices (twoRegisters [false, true, false] [true, false] .downto) interleaved =
      .ok interleaved := rfl
  refusesWidth_iff hbuilt
    (fun slice _ => twoRegisters_sized (by decide) (by decide) .downto slice.reg) (by decide)

def twoBits : List RegisterSlice := [⟨0, ⟨0, 0⟩⟩, ⟨1, ⟨0, 0⟩⟩]

/-- Numbered down to zero, a value that is too long is written; numbered the other way, one that is too short is written in part. -/
theorem not_refusesWidth_twoBits :
    (bitsCount twoBits = .ok 2 ∧ ¬RefusesWidth twoBits (twoRegisters [false] [false] .downto) 3) ∧
      ¬RefusesWidth twoBits (twoRegisters [false] [false] .upto) 1 := by
  have hcount : bitsCount twoBits = .ok 2 := rfl
  have hfirst : ∀ ordering, First (twoRegisters [false] [false] ordering) ⟨0, ⟨0, 0⟩⟩
      [⟨1, ⟨0, 0⟩⟩] 2 := fun ordering =>
    ⟨twoRegisters_sized (by decide) (by decide) ordering 0, Nat.zero_lt_one, hcount, by decide⟩
  refine ⟨⟨hcount, (hfirst .downto).not_refusesWidth (by decide) ?_⟩,
    (hfirst .upto).not_refusesWidth (by decide) ?_⟩
  · simp [LacksFirst, ExceedsRegister, twoRegisters, IndexedRange.offset, IndexedRange.count,
      Register.bitsCount, Register.create]
  · simp [LacksFirst, ExceedsRegister, twoRegisters, IndexedRange.offset, IndexedRange.count,
      Register.bitsCount, Register.create]

end VirtualRegister

end Mast
