import Mast.Scan.WholeRegister

/-!
# Slices of registers

A range counts the bits of a register in the direction of its bits ordering. `GetSlice` and `SetSlice` translate it to offsets in the vector of the register, so that a virtual register names, for each bit of its value, a bit of a register.
-/

namespace Mast

open BinaryVector (IndexedRange)

namespace BinaryVector.IndexedRange

/-- The range has bits of a register of `bitsCount` bits, numbered as the register is. -/
def Within (range : IndexedRange) (ordering : BitsOrdering) (bitsCount : Nat) : Prop :=
  if ordering = .upto then range.left ≤ range.right ∧ range.right < bitsCount
  else range.right ≤ range.left ∧ range.left < bitsCount

def offset (range : IndexedRange) (ordering : BitsOrdering) (bitsCount : Nat) : Nat :=
  if ordering = .upto then range.left else bitsCount - 1 - range.left

def count (range : IndexedRange) : Nat :=
  if range.left > range.right then range.left - range.right + 1 else range.right - range.left + 1

variable {range : IndexedRange} {ordering : BitsOrdering} {bitsCount : Nat}

theorem count_pos : 0 < range.count := by
  unfold count
  split <;> omega

theorem Within.offset_count (hrange : range.Within ordering bitsCount) :
    range.offset ordering bitsCount + range.count ≤ bitsCount := by
  unfold Within at hrange
  unfold offset count
  split at hrange
  · rename_i hupto
    rw [if_pos hupto]
    split <;> omega
  · rename_i hdownto
    rw [if_neg hdownto]
    split <;> omega

theorem Within.width (hrange : range.Within ordering bitsCount) (hbits : bitsCount < uint32Size) :
    range.width = .ok range.count := by
  have hcount := hrange.offset_count
  have hsame : (1 + if range.left > range.right then range.left - range.right
      else range.right - range.left) = range.count := by
    unfold count
    split <;> omega
  have hpos := @count_pos range
  simp only [IndexedRange.width, hsame, Nat.mod_eq_of_lt (show range.count < uint32Size by omega)]
  rw [if_neg (by omega)]

end BinaryVector.IndexedRange

namespace VirtualRegister

open BinaryVector.IndexedRange

variable {range : IndexedRange} {ordering : BitsOrdering} {bits value : Bits}

theorem setSlice_within (hrange : range.Within ordering bits.length)
    (hbits : bits.length < uint32Size) (hvalue : value.length = range.count) :
    setSlice range ordering bits value =
      .ok (BitPacking.splice bits (range.offset ordering bits.length) value) := by
  have hcount := hrange.offset_count
  have hpos := @count_pos range
  have hoffset : (if ordering = .upto then range.left else adaptedIndex bits range.left) =
      range.offset ordering bits.length := by
    unfold Within at hrange
    unfold offset
    split
    · rfl
    · rename_i hdownto
      rw [if_neg hdownto] at hrange
      exact adaptedIndex_eq hbits hrange.2
  have hset := Bits.setSlice_eq hbits (show 0 < value.length by omega)
    (show range.offset ordering bits.length + value.length ≤ bits.length by omega)
  have hnone : bits ≠ [] := List.ne_nil_of_length_pos (by omega)
  rw [setSlice, if_neg hnone, hrange.width hbits]
  change (if range.count ≠ value.length then _ else _) = _
  rw [if_neg (by omega), hoffset]
  exact hset

theorem getSlice_within (hrange : range.Within ordering bits.length)
    (hbits : bits.length < uint32Size) :
    getSlice range ordering bits =
      .ok ((bits.drop (range.offset ordering bits.length)).take range.count) := by
  have hcount := hrange.offset_count
  have hpos := @count_pos range
  have hslice := Bits.slice_eq hbits hcount
  have hnone : bits ≠ [] := List.ne_nil_of_length_pos (by omega)
  rw [getSlice, if_neg hnone]
  by_cases hupto : ordering = .upto
  · rw [if_pos hupto, hrange.width hbits]
    rw [offset, if_pos hupto] at hslice ⊢
    exact hslice
  · have hdownto := hrange
    unfold Within at hdownto
    rw [if_neg hupto] at hdownto
    have hleft := adaptedIndex_eq hbits hdownto.2
    have hright := adaptedIndex_eq hbits (show range.right < bits.length by omega)
    -- mirrored, the range runs the other way
    have hmirrored : IndexedRange.Within ⟨bits.length - 1 - range.left,
        bits.length - 1 - range.right⟩ .upto bits.length :=
      ⟨by simp only; omega, by simp only; omega⟩
    have hsame : IndexedRange.count ⟨bits.length - 1 - range.left, bits.length - 1 - range.right⟩ =
        range.count := by
      simp only [count]
      split <;> split <;> omega
    rw [if_neg hupto]
    simp only [hleft, hright, hmirrored.width hbits, hsame]
    rw [offset, if_neg hupto] at hslice ⊢
    exact hslice

end VirtualRegister

/-! ### The bits that are named -/

/-- The bits of a slice of a register of the given width, by their offsets. -/
def RegisterSlice.namedBits (slice : RegisterSlice) (ordering : BitsOrdering) (bitsCount : Nat) :
    List (Nat × Nat) :=
  (List.range slice.range.count).map fun k =>
    (slice.reg, slice.range.offset ordering bitsCount + k)

namespace VirtualRegister

/-- For each bit of the value of a virtual register, the register and the offset of the bit in it. -/
def namedBits (v : VirtualRegister) (ordering : BitsOrdering) (bitsCount : Nat → Nat) :
    List (Nat × Nat) :=
  v.flatMap fun slice => slice.namedBits ordering (bitsCount slice.reg)

theorem namedBits_cons (slice : RegisterSlice) (v : VirtualRegister) (bitsCount : Nat → Nat) :
    namedBits (slice :: v) ordering bitsCount =
      slice.namedBits ordering (bitsCount slice.reg) ++ namedBits v ordering bitsCount := rfl

theorem mem_slice_namedBits {slice : RegisterSlice} {bitsCount reg i : Nat} :
    (reg, i) ∈ slice.namedBits ordering bitsCount ↔
      slice.reg = reg ∧ slice.range.offset ordering bitsCount ≤ i ∧
        i < slice.range.offset ordering bitsCount + slice.range.count := by
  simp only [RegisterSlice.namedBits, List.mem_map, List.mem_range, Prod.mk.injEq]
  constructor
  · intro ⟨k, hk, hreg, hi⟩
    exact ⟨hreg, by omega, by omega⟩
  · intro ⟨hreg, hfirst, hlast⟩
    exact ⟨i - slice.range.offset ordering bitsCount, by omega, hreg, by omega⟩

@[simp] theorem slice_namedBits_length (slice : RegisterSlice) (bitsCount : Nat) :
    (slice.namedBits ordering bitsCount).length = slice.range.count := by
  simp [RegisterSlice.namedBits]

/-! ### Updating registers -/

/-- The loop of `UpdateRegisters`: each slice is updated with the next bits of the value, given by their range. -/
def updateEach (registerUpdater : RegisterSlice → IndexedRange → SystemModel → Except Fault SystemModel)
    (ordering : BitsOrdering) : VirtualRegister → Nat → SystemModel → Except Fault SystemModel
  | [], _, s => .ok s
  | slice :: rest, index, s => do
    let width ← slice.range.width
    let right :=
      if ordering = .upto then (index + (width - 1)) % uint32Size
      else (index + (uint32Size - (width - 1))) % uint32Size
    let s ← registerUpdater slice ⟨index, right⟩ s
    let index :=
      if ordering = .upto then (right + 1) % uint32Size else (right + (uint32Size - 1)) % uint32Size
    updateEach registerUpdater ordering rest index s

/-- `UpdateRegisters`; there is no first register to ask for the ordering when there is none. -/
def updateRegisters
    (registerUpdater : RegisterSlice → IndexedRange → SystemModel → Except Fault SystemModel)
    (v : VirtualRegister) (s : SystemModel) : Except Fault SystemModel :=
  if v = [] then .error .undefinedBehaviour
  else if v.bitsOrdering s = .upto then updateEach registerUpdater .upto v 0 s
  else do
    let count ← v.bitsCount
    updateEach registerUpdater (v.bitsOrdering s) v ((count + (uint32Size - 1)) % uint32Size) s

/-- The index, in the numbering of a value of `size` bits, of the bit at an offset. Behind the last bit it wraps. -/
def valueIndex (ordering : BitsOrdering) (size offset : Nat) : Nat :=
  if ordering = .upto then offset else (size - 1 + (uint32Size - offset)) % uint32Size

/-- The range, in the numbering of a value of `size` bits, of `count` bits from an offset. -/
def valueRange (ordering : BitsOrdering) (size offset count : Nat) : IndexedRange :=
  if ordering = .upto then ⟨offset, offset + count - 1⟩
  else ⟨size - 1 - offset, size - offset - count⟩

/-- Slices are updated one after the other, with the bits of a value from an offset on. -/
def Steps (R : RegisterSlice → Nat → SystemModel → SystemModel → Prop) :
    VirtualRegister → Nat → SystemModel → SystemModel → Prop
  | [], _, s, s' => s' = s
  | slice :: rest, offset, s, s' =>
    ∃ between, R slice offset s between ∧ Steps R rest (offset + slice.range.count) between s'

variable {size offset count : Nat} {v : VirtualRegister} {s s' : SystemModel}
  {bitsCount : Nat → Nat}

theorem valueRange_slice (hcount : 0 < count) (hin : offset + count ≤ value.length)
    (hvalue : value.length < uint32Size) :
    getSlice (valueRange ordering value.length offset count) ordering value =
      .ok ((value.drop offset).take count) := by
  have hwithin : (valueRange ordering value.length offset count).Within ordering value.length := by
    unfold valueRange IndexedRange.Within
    split
    · exact ⟨by simp only; omega, by simp only; omega⟩
    · exact ⟨by simp only; omega, by simp only; omega⟩
  have hoffset : (valueRange ordering value.length offset count).offset ordering value.length =
      offset := by
    unfold valueRange BinaryVector.IndexedRange.offset
    split
    · rfl
    · simp only
      omega
  have hsame : (valueRange ordering value.length offset count).count = count := by
    unfold valueRange BinaryVector.IndexedRange.count
    split
    · simp only
      split <;> omega
    · simp only
      split <;> omega
  rw [getSlice_within hwithin hvalue, hoffset, hsame]

/-- When each slice can be updated and a property of the state is kept, so can all of them. -/
theorem updateEach_steps
    {registerUpdater : RegisterSlice → IndexedRange → SystemModel → Except Fault SystemModel}
    {Q : SystemModel → Prop} {R : RegisterSlice → Nat → SystemModel → SystemModel → Prop}
    (hsize : size < uint32Size)
    (hwidths : ∀ slice ∈ v, slice.range.width = .ok slice.range.count)
    (hstep : ∀ slice ∈ v, ∀ offset s, offset + slice.range.count ≤ size → Q s →
      ∃ s', registerUpdater slice (valueRange ordering size offset slice.range.count) s = .ok s' ∧
        Q s' ∧ R slice offset s s')
    (hin : offset + (namedBits v ordering bitsCount).length ≤ size) (hs : Q s) :
    ∃ s', updateEach registerUpdater ordering v (valueIndex ordering size offset) s = .ok s' ∧
      Q s' ∧ Steps R v offset s s' := by
  induction v generalizing offset s with
  | nil => exact ⟨s, rfl, hs, rfl⟩
  | cons slice rest ih =>
    rw [namedBits_cons, List.length_append, slice_namedBits_length] at hin
    have hpos := @IndexedRange.count_pos slice.range
    obtain ⟨between, hupdate, hbetween, hrel⟩ :=
      hstep slice List.mem_cons_self offset s (by omega) hs
    obtain ⟨s', hrest, hs', hsteps⟩ := ih
      (fun slice hslice => hwidths slice (List.mem_cons_of_mem _ hslice))
      (fun slice hslice => hstep slice (List.mem_cons_of_mem _ hslice))
      (show offset + slice.range.count + (namedBits rest ordering bitsCount).length ≤ size by omega)
      hbetween
    refine ⟨s', ?_, hs', between, hrel, hsteps⟩
    have hright : (if ordering = .upto
        then (valueIndex ordering size offset + (slice.range.count - 1)) % uint32Size
        else (valueIndex ordering size offset + (uint32Size - (slice.range.count - 1))) %
          uint32Size) = (valueRange ordering size offset slice.range.count).right := by
      unfold valueIndex valueRange
      split
      · simp only
        rw [Nat.mod_eq_of_lt (by omega)]
        omega
      · have hleft : (size - 1 + (uint32Size - offset)) % uint32Size = size - 1 - offset := by
          rw [show size - 1 + (uint32Size - offset) = size - 1 - offset + uint32Size by omega,
            Nat.add_mod_right, Nat.mod_eq_of_lt (by omega)]
        simp only [hleft]
        rw [show size - 1 - offset + (uint32Size - (slice.range.count - 1)) =
          size - offset - slice.range.count + uint32Size by omega, Nat.add_mod_right,
          Nat.mod_eq_of_lt (by omega)]
    have hleft : valueIndex ordering size offset =
        (valueRange ordering size offset slice.range.count).left := by
      unfold valueIndex valueRange
      split
      · rfl
      · simp only
        rw [show size - 1 + (uint32Size - offset) = size - 1 - offset + uint32Size by omega,
          Nat.add_mod_right, Nat.mod_eq_of_lt (by omega)]
    have hnext : (if ordering = .upto
        then ((valueRange ordering size offset slice.range.count).right + 1) % uint32Size
        else ((valueRange ordering size offset slice.range.count).right + (uint32Size - 1)) %
          uint32Size) = valueIndex ordering size (offset + slice.range.count) := by
      unfold valueIndex valueRange
      split
      · simp only
        rw [Nat.mod_eq_of_lt (by omega)]
        omega
      · simp only
        congr 1
        omega
    simp only [updateEach, hwidths slice List.mem_cons_self, bind, Except.bind, hright]
    have hrange : (⟨valueIndex ordering size offset,
        (valueRange ordering size offset slice.range.count).right⟩ : IndexedRange) =
          valueRange ordering size offset slice.range.count := by
      rw [hleft]
    simp only [hrange, hupdate, hnext]
    exact hrest

theorem bitsCount_eq (hwidths : ∀ slice ∈ v, slice.range.width = .ok slice.range.count)
    (hsize : (namedBits v ordering bitsCount).length < uint32Size) :
    v.bitsCount = .ok (namedBits v ordering bitsCount).length := by
  induction v with
  | nil => rfl
  | cons slice rest ih =>
    rw [namedBits_cons, List.length_append, slice_namedBits_length] at hsize ⊢
    have hrest := ih (fun other hother => hwidths other (List.mem_cons_of_mem _ hother)) (by omega)
    simp only [VirtualRegister.bitsCount, hwidths slice List.mem_cons_self, hrest, bind,
      Except.bind, pure, Except.pure, Nat.mod_eq_of_lt hsize]

theorem updateRegisters_steps
    {registerUpdater : RegisterSlice → IndexedRange → SystemModel → Except Fault SystemModel}
    {Q : SystemModel → Prop} {R : RegisterSlice → Nat → SystemModel → SystemModel → Prop}
    (hsome : v ≠ []) (hordering : ∀ slice ∈ v, (s.registers slice.reg).bitsOrdering = ordering)
    (hwidths : ∀ slice ∈ v, slice.range.width = .ok slice.range.count)
    (hsize : (namedBits v ordering bitsCount).length < uint32Size)
    (hstep : ∀ slice ∈ v, ∀ offset s,
      offset + slice.range.count ≤ (namedBits v ordering bitsCount).length → Q s →
      ∃ s', registerUpdater slice (valueRange ordering (namedBits v ordering bitsCount).length offset
          slice.range.count) s = .ok s' ∧ Q s' ∧ R slice offset s s')
    (hs : Q s) :
    ∃ s', updateRegisters registerUpdater v s = .ok s' ∧ Q s' ∧ Steps R v 0 s s' := by
  have hfirst : v.bitsOrdering s = ordering := by
    obtain ⟨slice, rest, rfl⟩ := List.exists_cons_of_ne_nil hsome
    exact hordering slice List.mem_cons_self
  have hpos : 0 < (namedBits v ordering bitsCount).length := by
    obtain ⟨slice, rest, rfl⟩ := List.exists_cons_of_ne_nil hsome
    have hcount := @IndexedRange.count_pos slice.range
    rw [namedBits_cons, List.length_append, slice_namedBits_length]
    omega
  obtain ⟨s', hrun, hs', hsteps⟩ : ∃ s', updateEach registerUpdater ordering v
      (valueIndex ordering (namedBits v ordering bitsCount).length 0) s = .ok s' ∧ Q s' ∧
      Steps R v 0 s s' := updateEach_steps hsize hwidths hstep (Nat.le_of_eq (Nat.zero_add _)) hs
  refine ⟨s', ?_, hs', hsteps⟩
  rw [updateRegisters, if_neg hsome, hfirst]
  split
  · rename_i hupto
    subst hupto
    exact hrun
  · rename_i hdownto
    have hstart : valueIndex ordering (namedBits v ordering bitsCount).length 0 =
        ((namedBits v ordering bitsCount).length + (uint32Size - 1)) % uint32Size := by
      rw [valueIndex, if_neg hdownto]
      congr 1
      omega
    rw [hstart] at hrun
    rw [bitsCount_eq hwidths hsize]
    exact hrun

/-- A slice of what the registers hold is overwritten with bits of a value. -/
def Overwrites (get : SystemModel → Nat → Bits) (ordering : BitsOrdering) (bitsCount : Nat → Nat)
    (value : Bits) (slice : RegisterSlice) (offset : Nat) (s s' : SystemModel) : Prop :=
  get s' slice.reg = BitPacking.splice (get s slice.reg)
      (slice.range.offset ordering (bitsCount slice.reg))
      ((value.drop offset).take slice.range.count) ∧
    ∀ other, other ≠ slice.reg → get s' other = get s other

variable {get : SystemModel → Nat → Bits}

theorem Overwrites.getElem? {slice : RegisterSlice}
    (hoverwrites : Overwrites get ordering bitsCount value slice offset s s')
    (hlength : (get s slice.reg).length = bitsCount slice.reg)
    (hwithin : slice.range.Within ordering (bitsCount slice.reg))
    (hin : offset + slice.range.count ≤ value.length) (reg i : Nat) :
    (∀ k, (slice.namedBits ordering (bitsCount slice.reg))[k]? = some (reg, i) →
        (get s' reg)[i]? = value[offset + k]?) ∧
      ((reg, i) ∉ slice.namedBits ordering (bitsCount slice.reg) →
        (get s' reg)[i]? = (get s reg)[i]?) := by
  have hcount := hwithin.offset_count
  have hchunk : ((value.drop offset).take slice.range.count).length = slice.range.count := by
    rw [List.length_take, List.length_drop]
    omega
  have hin' : slice.range.offset ordering (bitsCount slice.reg) +
      ((value.drop offset).take slice.range.count).length ≤ (get s slice.reg).length := by omega
  have hsplice := BitPacking.splice_getElem? hin' i
  rw [← hoverwrites.1, hchunk] at hsplice
  constructor
  · intro k hk
    have hin := (List.getElem?_eq_some_iff.mp hk).1
    rw [slice_namedBits_length] at hin
    simp only [RegisterSlice.namedBits, List.getElem?_map, List.getElem?_range hin,
      Option.map_some, Option.some.injEq, Prod.mk.injEq] at hk
    obtain ⟨rfl, rfl⟩ := hk
    rw [hsplice, if_pos (by omega), List.getElem?_take, if_pos (by omega), List.getElem?_drop]
    congr 1
    omega
  · intro hout
    by_cases hreg : reg = slice.reg
    · subst hreg
      rw [hsplice, if_neg fun hrange => hout (mem_slice_namedBits.mpr ⟨rfl, hrange⟩)]
    · rw [hoverwrites.2 reg hreg]

theorem Overwrites.length {slice : RegisterSlice}
    (hoverwrites : Overwrites get ordering bitsCount value slice offset s s')
    (hlength : (get s slice.reg).length = bitsCount slice.reg)
    (hwithin : slice.range.Within ordering (bitsCount slice.reg)) (reg : Nat) :
    (get s' reg).length = (get s reg).length := by
  by_cases hreg : reg = slice.reg
  · subst hreg
    have hcount := hwithin.offset_count
    rw [hoverwrites.1, BitPacking.splice_length]
    rw [List.length_take, List.length_drop]
    omega
  · rw [hoverwrites.2 reg hreg]

/-- What disjoint slices hold in the end: the bits they name come from the value, the others are kept. -/
theorem Steps.getElem?
    (hsteps : Steps (Overwrites get ordering bitsCount value) v offset s s')
    (hlength : ∀ slice ∈ v, (get s slice.reg).length = bitsCount slice.reg)
    (hwithin : ∀ slice ∈ v, slice.range.Within ordering (bitsCount slice.reg))
    (hdisjoint : (namedBits v ordering bitsCount).Nodup)
    (hin : offset + (namedBits v ordering bitsCount).length ≤ value.length) (reg i : Nat) :
    (∀ k, (namedBits v ordering bitsCount)[k]? = some (reg, i) →
        (get s' reg)[i]? = value[offset + k]?) ∧
      ((reg, i) ∉ namedBits v ordering bitsCount → (get s' reg)[i]? = (get s reg)[i]?) := by
  induction v generalizing offset s with
  | nil =>
    subst hsteps
    exact ⟨fun k hk => by simp [namedBits] at hk, fun _ => rfl⟩
  | cons slice rest ih =>
    obtain ⟨between, hfirst, hrest⟩ := hsteps
    rw [namedBits_cons, List.length_append, slice_namedBits_length] at hin
    rw [namedBits_cons] at hdisjoint ⊢
    obtain ⟨-, hdisjoint, hapart⟩ := List.nodup_append'.mp hdisjoint
    have hhead := hlength slice List.mem_cons_self
    have hslice := hwithin slice List.mem_cons_self
    have hstep := hfirst.getElem? hhead hslice (by omega) reg i
    have hkept := hfirst.length hhead hslice
    have hlater := ih hrest
      (fun other hother => (hkept _).trans (hlength other (List.mem_cons_of_mem _ hother)))
      (fun other hother => hwithin other (List.mem_cons_of_mem _ hother)) hdisjoint (by omega)
    constructor
    · intro k hk
      rcases Nat.lt_or_ge k slice.range.count with hinside | hbehind
      · -- a bit of the first slice, which the later ones do not name
        rw [List.getElem?_append_left (by rwa [slice_namedBits_length])] at hk
        rw [hlater.2 fun hmem => hapart (List.mem_of_getElem? hk) hmem]
        exact hstep.1 k hk
      · rw [List.getElem?_append_right (by rwa [slice_namedBits_length]),
          slice_namedBits_length] at hk
        rw [hlater.1 _ hk]
        congr 1
        omega
    · intro hout
      rw [List.mem_append, not_or] at hout
      rw [hlater.2 hout.2, hstep.2 hout.1]

theorem Steps.mono {R R' : RegisterSlice → Nat → SystemModel → SystemModel → Prop}
    (hsteps : Steps R v offset s s') (hR : ∀ slice offset s s', R slice offset s s' → R' slice offset s s') :
    Steps R' v offset s s' := by
  induction v generalizing offset s with
  | nil => exact hsteps
  | cons slice rest ih =>
    obtain ⟨between, hfirst, hrest⟩ := hsteps
    exact ⟨between, hR _ _ _ _ hfirst, ih hrest⟩

theorem Steps.kept {α : Type*} {get : SystemModel → α}
    (hsteps : Steps (fun _ _ s s' => get s' = get s) v offset s s') : get s' = get s := by
  induction v generalizing offset s with
  | nil => exact congrArg get hsteps
  | cons slice rest ih =>
    obtain ⟨between, hfirst, hrest⟩ := hsteps
    exact (ih hrest).trans hfirst

end VirtualRegister

end Mast
