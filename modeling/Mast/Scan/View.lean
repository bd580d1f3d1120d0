import Mast.Scan.RegisterSlices

/-!
# A virtual register is a view

`Append` puts a virtual register together from slices of registers. What `SetToSut` writes through disjoint slices is what `NextToSut` reads back, and the bits outside of the slices are left alone. The sum of the widths has to be a number of 32 bits for that.
-/

namespace Mast

open BinaryVector (IndexedRange)
open Outcome

namespace BinaryVector.IndexedRange

/-- The index is one of the range. -/
def Has (range : IndexedRange) (index : Nat) : Prop :=
  min range.left range.right ≤ index ∧ index ≤ max range.left range.right

instance (range : IndexedRange) (index : Nat) : Decidable (range.Has index) :=
  inferInstanceAs (Decidable (_ ∧ _))

/-- The range counts in the direction of the ordering. -/
def Follows (range : IndexedRange) (ordering : BitsOrdering) : Prop :=
  if ordering = .upto then range.left ≤ range.right else range.right ≤ range.left

instance (range : IndexedRange) (ordering : BitsOrdering) : Decidable (range.Follows ordering) :=
  inferInstanceAs (Decidable (if ordering = .upto then range.left ≤ range.right
    else range.right ≤ range.left))

variable {range : IndexedRange} {ordering : BitsOrdering} {bitsCount : Nat}

theorem Follows.within (hfollows : range.Follows ordering)
    (hin : max range.left range.right < bitsCount) : range.Within ordering bitsCount := by
  unfold Follows at hfollows
  unfold Within
  split at hfollows
  · rw [if_pos ‹_›]
    omega
  · rw [if_neg ‹_›]
    omega

end BinaryVector.IndexedRange

namespace VirtualRegister

/-- `Append`, for a slice of a register of the given width and ordering. -/
def appendSlice (v : VirtualRegister) (slice : RegisterSlice) (bitsCount : Nat)
    (ordering previousOrdering : BitsOrdering) : Except Fault VirtualRegister :=
  if bitsCount = 0 then .error (.invalidArgument "Cannot append Register with width zero")
  else if ordering = .undefined then .error (.invalidArgument "Bits ordering must be defined")
  else do
    let width ← slice.range.width
    if width > bitsCount then
      .error (.invalidArgument "Range cannot be larger than Register")
    else if max slice.range.left slice.range.right ≥ bitsCount then
      .error (.invalidArgument "Range cannot extend past the Register width")
    else if v ≠ [] ∧ ordering ≠ previousOrdering then
      .error (.invalidArgument "Bits ordering must be the same as previous registers")
    else .ok (v ++ [slice])

/-- `Append`; the width and the ordering of a register stay what they are. -/
def append (s : SystemModel) (v : VirtualRegister) (registerSlice : RegisterSlice) :
    Except Fault VirtualRegister :=
  let reg := s.registers registerSlice.reg
  v.appendSlice registerSlice reg.bitsCount reg.bitsOrdering
    (v.getLast?.elim .undefined fun last => (s.registers last.reg).bitsOrdering)

/-- A virtual register put together from slices with `Append`. -/
def ofSlices (s : SystemModel) (slices : List RegisterSlice) : Except Fault VirtualRegister :=
  slices.foldlM (append s) []

/-- No two slices have a bit in common. -/
def Disjoint (v : VirtualRegister) : Prop :=
  v.Pairwise fun slice other =>
    slice.reg = other.reg → ∀ index, slice.range.Has index → ¬other.range.Has index

def totalWidth (v : VirtualRegister) : Nat := (v.map fun slice => slice.range.count).sum

theorem appendSlice_ok {v v' : VirtualRegister} {slice : RegisterSlice} {bitsCount : Nat}
    {ordering previousOrdering : BitsOrdering}
    (happend : appendSlice v slice bitsCount ordering previousOrdering = .ok v') :
    bitsCount ≠ 0 ∧ ordering ≠ .undefined ∧ max slice.range.left slice.range.right < bitsCount ∧
      (v ≠ [] → ordering = previousOrdering) ∧ v' = v ++ [slice] := by
  unfold appendSlice at happend
  split at happend
  · cases happend
  · rename_i hsome
    split at happend
    · cases happend
    · rename_i hdefined
      obtain ⟨width, -, happend⟩ := bind_eq_ok.mp happend
      split at happend
      · cases happend
      · split at happend
        · cases happend
        · rename_i hin
          split at happend
          · cases happend
          · rename_i hsame
            exact ⟨hsome, hdefined, by omega, fun hne => not_not.mp fun h => hsame ⟨hne, h⟩,
              (Except.ok.inj happend).symm⟩

/-- What `Append` has checked of the slices of a virtual register. -/
structure Appended (s : SystemModel) (v : VirtualRegister) (ordering : BitsOrdering) : Prop where
  numbered (slice : RegisterSlice) : slice ∈ v → (s.registers slice.reg).bitsOrdering = ordering
  within (slice : RegisterSlice) : slice ∈ v →
    max slice.range.left slice.range.right < (s.registers slice.reg).bitsCount

variable {s : SystemModel} {v v' : VirtualRegister} {slices : List RegisterSlice}

theorem Appended.append {ordering : BitsOrdering} {slice : RegisterSlice}
    (hv : Appended s v ordering) (happend : v.append s slice = .ok v') :
    v' = v ++ [slice] ∧ ∃ ordering, Appended s v' ordering := by
  obtain ⟨-, -, hin, hsame, rfl⟩ := appendSlice_ok happend
  refine ⟨rfl, (s.registers slice.reg).bitsOrdering, ⟨fun other hother => ?_, fun other hother => ?_⟩⟩
  · rcases List.mem_append.mp hother with hmem | hlast
    · have hne : v ≠ [] := List.ne_nil_of_mem hmem
      rw [hsame hne, List.getLast?_eq_some_getLast hne, Option.elim_some,
        hv.numbered other hmem, hv.numbered _ (List.getLast_mem hne)]
    · rw [List.mem_singleton.mp hlast]
  · rcases List.mem_append.mp hother with hmem | hlast
    · exact hv.within other hmem
    · rwa [List.mem_singleton.mp hlast]

theorem ofSlices_ok (hbuilt : ofSlices s slices = .ok v) :
    v = slices ∧ ∃ ordering, Appended s v ordering := by
  have hloop : ∀ {front : VirtualRegister} {slices : List RegisterSlice},
      (∃ ordering, Appended s front ordering) → slices.foldlM (VirtualRegister.append s) front = .ok v →
      v = front ++ slices ∧ ∃ ordering, Appended s v ordering := by
    intro front slices hfront hrun
    induction slices generalizing front with
    | nil =>
      obtain rfl := Except.ok.inj hrun
      exact ⟨(List.append_nil _).symm, hfront⟩
    | cons slice rest ih =>
      obtain ⟨ordering, hfront⟩ := hfront
      obtain ⟨next, happend, hrest⟩ := bind_eq_ok.mp hrun
      obtain ⟨rfl, hnext⟩ := hfront.append happend
      obtain ⟨rfl, hv⟩ := ih hnext hrest
      exact ⟨List.append_assoc _ _ _, hv⟩
  have hnone : Appended s [] .undefined :=
    ⟨fun slice hslice => absurd hslice List.not_mem_nil,
      fun slice hslice => absurd hslice List.not_mem_nil⟩
  exact hloop ⟨.undefined, hnone⟩ hbuilt

/-! ### The bits of disjoint slices -/

section Bits

variable {ordering : BitsOrdering} {bitsCount : Nat → Nat}

theorem has_index {range : IndexedRange} {width i : Nat} (hwithin : range.Within ordering width)
    (hfirst : range.offset ordering width ≤ i) (hlast : i < range.offset ordering width + range.count) :
    range.Has (if ordering = .upto then i else width - 1 - i) := by
  unfold IndexedRange.Within at hwithin
  unfold IndexedRange.offset at hfirst hlast
  unfold IndexedRange.count at hlast
  unfold IndexedRange.Has
  split at hwithin
  · rename_i hupto
    rw [if_pos hupto] at hfirst hlast
    rw [if_pos hupto]
    split at hlast <;> omega
  · rename_i hdownto
    rw [if_neg hdownto] at hfirst hlast
    rw [if_neg hdownto]
    split at hlast <;> omega

theorem Disjoint.namedBits_nodup (hdisjoint : v.Disjoint)
    (hwithin : ∀ slice ∈ v, slice.range.Within ordering (bitsCount slice.reg)) :
    (v.namedBits ordering bitsCount).Nodup := by
  refine List.nodup_flatMap.mpr ⟨fun slice _ => ?_, ?_⟩
  · refine List.Nodup.map ?_ List.nodup_range
    intro k k' hsame
    have hoffset := congrArg Prod.snd hsame
    exact Nat.add_left_cancel hoffset
  · refine List.Pairwise.imp_of_mem ?_ hdisjoint
    intro slice other hslice hother hapart
    rintro ⟨reg, i⟩ hmem hmem'
    obtain ⟨rfl, hfirst, hlast⟩ := mem_slice_namedBits.mp hmem
    obtain ⟨hreg, hfirst', hlast'⟩ := mem_slice_namedBits.mp hmem'
    rw [hreg] at hfirst' hlast'
    have hother' := hreg ▸ hwithin other hother
    exact hapart hreg.symm _ (has_index (hwithin slice hslice) hfirst hlast)
      (has_index hother' hfirst' hlast')

theorem namedBits_length : (v.namedBits ordering bitsCount).length = v.totalWidth := by
  induction v with
  | nil => rfl
  | cons slice rest ih =>
    rw [namedBits_cons, List.length_append, slice_namedBits_length, ih]
    rfl

theorem bitsCount_total (hwidths : ∀ slice ∈ v, slice.range.width = .ok slice.range.count) :
    v.bitsCount = .ok (v.totalWidth % uint32Size) := by
  induction v with
  | nil => rfl
  | cons slice rest ih =>
    have hrest := ih fun other hother => hwidths other (List.mem_cons_of_mem _ hother)
    simp only [VirtualRegister.bitsCount, hwidths slice List.mem_cons_self, hrest, bind,
      Except.bind, pure, Except.pure]
    rw [Nat.add_mod_mod]
    rfl

end Bits

/-! ### Reading through the slices -/

section Reading

variable {ordering : BitsOrdering} {getter : Register → Bits}

/-- Each bit of a view is the bit of a register that is named for it. -/
theorem viewSlices_named (getter : Register → Bits) (bitsCount : Nat → Nat)
    (hwithin : ∀ slice ∈ v, slice.range.Within ordering (bitsCount slice.reg))
    (hcounts : ∀ slice ∈ v, bitsCount slice.reg < uint32Size)
    (hlengths : ∀ slice ∈ v, (getter (s.registers slice.reg)).length = bitsCount slice.reg) :
    ∃ view, viewSlices s ordering getter v = .ok view ∧
      view.length = (v.namedBits ordering bitsCount).length ∧
      ∀ k reg i : Nat, (v.namedBits ordering bitsCount)[k]? = some (reg, i) →
        view[k]? = (getter (s.registers reg))[i]? := by
  induction v with
  | nil => exact ⟨[], rfl, rfl, fun k reg i hk => by simp [namedBits] at hk⟩
  | cons slice rest ih =>
    obtain ⟨view, hview, hlength, hbits⟩ := ih
      (fun other hother => hwithin other (List.mem_cons_of_mem _ hother))
      (fun other hother => hcounts other (List.mem_cons_of_mem _ hother))
      (fun other hother => hlengths other (List.mem_cons_of_mem _ hother))
    have hslice := hwithin slice List.mem_cons_self
    have hregister := hlengths slice List.mem_cons_self
    have hcount := hslice.offset_count
    rw [← hregister] at hslice hcount
    have hget := getSlice_within hslice (hregister ▸ hcounts slice List.mem_cons_self)
    have hchunk : (((getter (s.registers slice.reg)).drop (slice.range.offset ordering
        (getter (s.registers slice.reg)).length)).take slice.range.count).length =
          slice.range.count := by
      rw [List.length_take, List.length_drop]
      omega
    refine ⟨_, bind_eq_ok.mpr ⟨_, hget, bind_eq_ok.mpr ⟨_, hview, rfl⟩⟩, ?_, fun k reg i hk => ?_⟩
    · rw [namedBits_cons, List.length_append, List.length_append, hchunk, hlength,
        slice_namedBits_length]
    · rw [namedBits_cons] at hk
      rcases Nat.lt_or_ge k slice.range.count with hinside | hbehind
      · rw [List.getElem?_append_left (by rwa [slice_namedBits_length])] at hk
        simp only [RegisterSlice.namedBits, List.getElem?_map, List.getElem?_range hinside,
          Option.map_some, Option.some.injEq, Prod.mk.injEq] at hk
        obtain ⟨rfl, rfl⟩ := hk
        rw [List.getElem?_append_left (by omega), List.getElem?_take, if_pos hinside,
          List.getElem?_drop, hregister]
      · rw [List.getElem?_append_right (by rwa [slice_namedBits_length]),
          slice_namedBits_length] at hk
        rw [List.getElem?_append_right (by omega), hchunk]
        exact hbits _ reg i hk

theorem getSlice_fits {range : IndexedRange} {bits result : Bits} (hfollows : range.Follows ordering)
    (hindex : max range.left range.right + 1 < uint32Size) (hbits : bits.length < uint32Size)
    (hget : getSlice range ordering bits = .ok result) :
    max range.left range.right < bits.length := by
  unfold IndexedRange.Follows at hfollows
  by_contra hbeyond
  split at hfollows
  · rename_i hupto
    subst hupto
    have hwidth : range.width = .ok (range.right - range.left + 1) := by
      have hwithin : range.Within .upto (range.right + 1) := ⟨hfollows, by omega⟩
      rw [hwithin.width (by omega), IndexedRange.count, if_neg (by omega)]
    have hnone : bits ≠ [] := by
      rintro rfl
      cases hget
    rw [getSlice, if_neg hnone, if_pos rfl, hwidth] at hget
    obtain ⟨vector, hvector, -⟩ := Outcome.map_eq_ok.mp hget
    obtain ⟨-, -, hlast⟩ : _ ∧ _ ∧
        (range.left + (range.right - range.left + 1)) % uint32Size ≤ bits.toVector.usedBits :=
      BinaryVector.slice_within (by omega) hvector
    have hused : bits.toVector.usedBits = bits.length := BinaryVector.ofBits_usedBits bits .notFixed
    rw [hused, Nat.mod_eq_of_lt (by omega)] at hlast
    omega
  · exact getSlice_short ‹_› (show bits.length < range.left + 1 by omega) (by omega) result hget

/-- The slices of a view that can be read lie within the registers. -/
theorem viewSlices_fits {view : Bits}
    (hfollows : ∀ slice ∈ v, slice.range.Follows ordering)
    (hindex : ∀ slice ∈ v, max slice.range.left slice.range.right + 1 < uint32Size)
    (hlengths : ∀ slice ∈ v, (getter (s.registers slice.reg)).length < uint32Size)
    (hview : viewSlices s ordering getter v = .ok view) :
    ∀ slice ∈ v, max slice.range.left slice.range.right <
      (getter (s.registers slice.reg)).length := by
  induction v generalizing view with
  | nil => exact fun slice hslice => absurd hslice List.not_mem_nil
  | cons slice rest ih =>
    obtain ⟨bits, hget, hview⟩ := bind_eq_ok.mp hview
    obtain ⟨others, hothers, -⟩ := bind_eq_ok.mp hview
    rw [List.forall_mem_cons] at hfollows hindex hlengths ⊢
    exact ⟨getSlice_fits hfollows.1 hindex.1 hlengths.1 hget,
      ih hfollows.2 hindex.2 hlengths.2 hothers⟩

end Reading

end VirtualRegister

/-! ### Writing through the slices -/

theorem Register.setToSut_ok {r : Register} {sequence : Bits}
    (hlength : sequence.length = r.nextToSut.length) :
    ∃ r', r.setToSut sequence = .ok r' ∧ r'.nextToSut = sequence ∧
      r'.bitsOrdering = r.bitsOrdering := by
  have hfits : r.Fits sequence := by
    cases hbox : r.isBlackBox with
    | true => exact .inl hbox
    | false => exact .inr (hlength.trans (r.nextToSut_length hbox))
  rw [setToSut, dif_pos hfits]
  exact ⟨_, rfl, rfl, rfl⟩

theorem Register.setToSut_bitsOrdering {r r' : Register} {sequence : Bits}
    (hset : r.setToSut sequence = .ok r') : r'.bitsOrdering = r.bitsOrdering := by
  unfold setToSut at hset
  split at hset
  · obtain rfl := Except.ok.inj hset
    rfl
  · cases hset

namespace VirtualRegister

section Writing

variable {s s' : SystemModel} {v : VirtualRegister} {slices : List RegisterSlice}
  {ordering : BitsOrdering} {bitsCount : Nat → Nat} {sequence : Bits} {slice : RegisterSlice}
  {offset : Nat}

def nextOf (s : SystemModel) (reg : Nat) : Bits := (s.registers reg).nextToSut

theorem updateSlices_eq (value : Bits) (ordering : BitsOrdering) (v : VirtualRegister)
    (index : Nat) (s : SystemModel) :
    updateSlices value ordering v index s =
      updateEach (fun slice valueRange => updateRegister slice valueRange value) ordering v index s := by
  induction v generalizing index s with
  | nil => rfl
  | cons slice rest ih => simp only [updateSlices, updateEach, ih]

theorem setToSut_eq_updateRegisters (hsequence : sequence ≠ []) (hv : v ≠ []) :
    v.setToSut sequence s =
      updateRegisters (fun slice valueRange => updateRegister slice valueRange sequence) v s := by
  rw [setToSut, if_neg hsequence, if_neg hv, updateRegisters, if_neg hv]
  simp only [updateSlices_eq]

/-- The registers of the slices are numbered alike and send sequences of the given lengths. -/
structure Sends (v : VirtualRegister) (ordering : BitsOrdering) (bitsCount : Nat → Nat)
    (s : SystemModel) : Prop where
  numbered (slice : RegisterSlice) : slice ∈ v → (s.registers slice.reg).bitsOrdering = ordering
  lengths (slice : RegisterSlice) : slice ∈ v → (nextOf s slice.reg).length = bitsCount slice.reg

theorem Sends.setRegister (hs : Sends v ordering bitsCount s) {reg : Nat} {r : Register}
    (hordering : r.bitsOrdering = (s.registers reg).bitsOrdering)
    (hlength : r.nextToSut.length = (nextOf s reg).length) :
    Sends v ordering bitsCount (s.setRegister reg r) := by
  constructor
  · intro other hother
    by_cases hreg : other.reg = reg
    · rw [hreg, SystemModel.setRegister_self, hordering, ← hreg]
      exact hs.numbered other hother
    · rw [SystemModel.setRegister_other _ _ hreg]
      exact hs.numbered other hother
  · intro other hother
    by_cases hreg : other.reg = reg
    · rw [nextOf, hreg, SystemModel.setRegister_self, hlength, ← hreg]
      exact hs.lengths other hother
    · rw [nextOf, SystemModel.setRegister_other _ _ hreg]
      exact hs.lengths other hother

theorem updateRegister_step (hs : Sends v ordering bitsCount s) (hslice : slice ∈ v)
    (hwithin : slice.range.Within ordering (bitsCount slice.reg))
    (hcount : bitsCount slice.reg < uint32Size)
    (hin : offset + slice.range.count ≤ sequence.length) (hsize : sequence.length < uint32Size) :
    ∃ s', updateRegister slice (valueRange ordering sequence.length offset slice.range.count)
          sequence s = .ok s' ∧
      Sends v ordering bitsCount s' ∧
      Overwrites nextOf ordering bitsCount sequence slice offset s s' := by
  have hvalue : getSlice (valueRange ordering sequence.length offset slice.range.count) ordering
      sequence = .ok ((sequence.drop offset).take slice.range.count) :=
    valueRange_slice IndexedRange.count_pos hin hsize
  have hchunk : ((sequence.drop offset).take slice.range.count).length = slice.range.count := by
    rw [List.length_take, List.length_drop]
    omega
  have hlength := hs.lengths slice hslice
  have hfits := hwithin.offset_count
  rw [← hlength] at hwithin hcount hfits
  have hset := setSlice_within hwithin hcount hchunk
  have hspliced : (BitPacking.splice (nextOf s slice.reg)
      (slice.range.offset ordering (nextOf s slice.reg).length)
      ((sequence.drop offset).take slice.range.count)).length = (nextOf s slice.reg).length :=
    BitPacking.splice_length (by omega)
  obtain ⟨r', hr', hnext, hordering⟩ := Register.setToSut_ok hspliced
  refine ⟨s.setRegister slice.reg r', ?_, hs.setRegister hordering (by rw [hnext, hspliced]), ?_, ?_⟩
  · simp only [updateRegister, hs.numbered slice hslice, hvalue, bind, Except.bind]
    rw [show setSlice slice.range ordering (s.registers slice.reg).nextToSut _ = _ from hset]
    simp only [hr', pure, Except.pure]
  · rw [nextOf, SystemModel.setRegister_self, hnext, hlength]
  · intro other hother
    rw [nextOf, SystemModel.setRegister_other _ _ hother]
    rfl

theorem setToSut_overwrites (hs : Sends v ordering bitsCount s) (hsome : v ≠ [])
    (hwithin : ∀ slice ∈ v, slice.range.Within ordering (bitsCount slice.reg))
    (hcounts : ∀ slice ∈ v, bitsCount slice.reg < uint32Size)
    (hsequence : sequence.length = v.totalWidth) (hsize : v.totalWidth < uint32Size) :
    ∃ s', v.setToSut sequence s = .ok s' ∧ Sends v ordering bitsCount s' ∧
      Steps (Overwrites nextOf ordering bitsCount sequence) v 0 s s' := by
  have hsum : (v.namedBits ordering bitsCount).length = sequence.length :=
    namedBits_length.trans hsequence.symm
  have hpos : sequence ≠ [] := by
    obtain ⟨slice, rest, rfl⟩ := List.exists_cons_of_ne_nil hsome
    have hcount := @IndexedRange.count_pos slice.range
    have hfirst : totalWidth (slice :: rest) = slice.range.count + totalWidth rest := rfl
    exact List.ne_nil_of_length_pos (by omega)
  have hsmall : (v.namedBits ordering bitsCount).length < uint32Size := by omega
  rw [setToSut_eq_updateRegisters hpos hsome]
  apply updateRegisters_steps hsome hs.numbered
    (fun slice hslice => (hwithin slice hslice).width (hcounts slice hslice)) hsmall _ hs
  intro slice hslice offset s hin hs
  rw [hsum] at hin ⊢
  exact updateRegister_step hs hslice (hwithin slice hslice) (hcounts slice hslice) hin (by omega)

theorem setToSut_bitsOrdering (hset : v.setToSut sequence s = .ok s') (reg : Nat) :
    (s'.registers reg).bitsOrdering = (s.registers reg).bitsOrdering := by
  have hloop : ∀ {v : VirtualRegister} {ordering : BitsOrdering} {index : Nat} {s : SystemModel},
      updateSlices sequence ordering v index s = .ok s' →
        (s'.registers reg).bitsOrdering = (s.registers reg).bitsOrdering := by
    intro v ordering index s hupdate
    induction v generalizing index s with
    | nil =>
      obtain rfl := Except.ok.inj hupdate
      rfl
    | cons slice rest ih =>
      obtain ⟨width, -, hupdate⟩ := bind_eq_ok.mp hupdate
      obtain ⟨between, hfirst, hrest⟩ := bind_eq_ok.mp hupdate
      obtain ⟨slicedValue, -, hfirst⟩ := bind_eq_ok.mp hfirst
      obtain ⟨regValue, -, hfirst⟩ := bind_eq_ok.mp hfirst
      obtain ⟨r', hr', hfirst⟩ := bind_eq_ok.mp hfirst
      obtain rfl := Except.ok.inj hfirst
      rw [ih hrest]
      by_cases hreg : reg = slice.reg
      · rw [hreg, SystemModel.setRegister_self, Register.setToSut_bitsOrdering hr']
      · rw [SystemModel.setRegister_other _ _ hreg]
  unfold setToSut at hset
  split at hset
  · cases hset
  · split at hset
    · cases hset
    · split at hset
      · exact hloop hset
      · obtain ⟨count, -, hset⟩ := bind_eq_ok.mp hset
        exact hloop hset

end Writing

/-! ### Views -/

/-- The number, in a register of the given width, of the bit at an offset. -/
def indexAt (ordering : BitsOrdering) (width offset : Nat) : Nat :=
  if ordering = .upto then offset else width - 1 - offset

/-- The bit of a register at an offset is in one of the slices. -/
def Covers (v : VirtualRegister) (s : SystemModel) (reg offset : Nat) : Prop :=
  ∃ slice ∈ v, slice.reg = reg ∧
    slice.range.Has (indexAt (s.registers reg).bitsOrdering (nextOf s reg).length offset)

/-- What is written is read back, and all bits outside of the slices are left alone. -/
def Views (v : VirtualRegister) (s : SystemModel) : Prop :=
  ∀ sequence : Bits, v.bitsCount = .ok sequence.length →
    ∃ s', v.setToSut sequence s = .ok s' ∧ v.nextToSut s' = .ok sequence ∧
      ∀ reg, (nextOf s' reg).length = (nextOf s reg).length ∧
        ∀ i, i < (nextOf s reg).length → ¬v.Covers s reg i →
          (nextOf s' reg)[i]? = (nextOf s reg)[i]?

section Views

variable {s : SystemModel} {v : VirtualRegister} {slices : List RegisterSlice}

/-- The register that a slice names has vectors, which count their bits in 32 bits. -/
def Counted (s : SystemModel) (v : VirtualRegister) : Prop :=
  ∀ slice ∈ v, (s.registers slice.reg).bitsCount < uint32Size ∧
    (nextOf s slice.reg).length < uint32Size

instance (s : SystemModel) (v : VirtualRegister) : Decidable (Counted s v) :=
  inferInstanceAs (Decidable (∀ slice ∈ v, _ ∧ _))

theorem views_of_fits {ordering : BitsOrdering} (hv : Appended s v ordering)
    (hfollows : ∀ slice ∈ v, slice.range.Follows ordering) (hdisjoint : v.Disjoint)
    (hcounted : Counted s v) (hsome : v ≠ []) (hsize : v.totalWidth < uint32Size)
    (hfits : ∀ slice ∈ v, max slice.range.left slice.range.right < (nextOf s slice.reg).length) :
    v.Views s := by
  have hwithin : ∀ slice ∈ v, slice.range.Within ordering (nextOf s slice.reg).length :=
    fun slice hslice => (hfollows slice hslice).within (hfits slice hslice)
  have hcounts : ∀ slice ∈ v, (nextOf s slice.reg).length < uint32Size :=
    fun slice hslice => (hcounted slice hslice).2
  have hnodup : (v.namedBits ordering fun reg => (nextOf s reg).length).Nodup :=
    hdisjoint.namedBits_nodup hwithin
  intro sequence hsequence
  rw [bitsCount_total fun slice hslice => (hwithin slice hslice).width (hcounts slice hslice),
    Nat.mod_eq_of_lt hsize] at hsequence
  have hlength := (Except.ok.inj hsequence).symm
  have hs : Sends v ordering (fun reg => (nextOf s reg).length) s := ⟨hv.numbered, fun _ _ => rfl⟩
  obtain ⟨s', hset, hs', hsteps⟩ := setToSut_overwrites hs hsome hwithin hcounts hlength hsize
  have hbits := hsteps.getElem? (fun _ _ => rfl) hwithin hnodup
    (by rw [namedBits_length, Nat.zero_add, hlength])
  refine ⟨s', hset, ?_, fun reg => ⟨?_, fun i hi hout => (hbits reg i).2 fun hnamed => hout ?_⟩⟩
  · have hlengths : ∀ slice ∈ v, (Register.nextToSut (s'.registers slice.reg)).length =
        (nextOf s slice.reg).length := hs'.lengths
    obtain ⟨view, hview, hviewLength, hnamed⟩ :=
      viewSlices_named Register.nextToSut (fun reg => (nextOf s reg).length) hwithin hcounts hlengths
    rw [namedBits_length] at hviewLength
    have hfirst : v.bitsOrdering s' = ordering := by
      obtain ⟨slice, rest, rfl⟩ := List.exists_cons_of_ne_nil hsome
      exact hs'.numbered slice List.mem_cons_self
    have hsame : view = sequence := by
      apply List.ext_getElem?
      intro k
      rcases Nat.lt_or_ge k v.totalWidth with hin | hbehind
      · have hk : k < (v.namedBits ordering fun reg => (nextOf s reg).length).length := by
          rwa [namedBits_length]
        have hnameds := List.getElem?_eq_getElem hk
        rw [hnamed k _ _ hnameds]
        exact ((hbits _ _).1 k hnameds).trans (congrArg (sequence[·]?) (Nat.zero_add k))
      · rw [List.getElem?_eq_none (by omega), List.getElem?_eq_none (by omega)]
    rw [VirtualRegister.nextToSut, getView, if_neg hsome, hfirst, hview, hsame]
  · by_cases hreg : ∃ slice ∈ v, slice.reg = reg
    · obtain ⟨slice, hslice, rfl⟩ := hreg
      exact hs'.lengths slice hslice
    · -- no bit of the register is named
      refine congrArg List.length (List.ext_getElem? fun i => (hbits reg i).2 fun hnamed => hreg ?_)
      obtain ⟨slice, hslice, hmem⟩ := List.mem_flatMap.mp hnamed
      exact ⟨slice, hslice, (mem_slice_namedBits.mp hmem).1⟩
  · obtain ⟨slice, hslice, hmem⟩ := List.mem_flatMap.mp hnamed
    obtain ⟨rfl, hfirst, hlast⟩ := mem_slice_namedBits.mp hmem
    refine ⟨slice, hslice, rfl, ?_⟩
    rw [hv.numbered slice hslice]
    exact has_index (hwithin slice hslice) hfirst hlast

theorem Views.fits {ordering : BitsOrdering} (hv : Appended s v ordering)
    (hfollows : ∀ slice ∈ v, slice.range.Follows ordering) (hcounted : Counted s v)
    (hviews : v.Views s) :
    v ≠ [] ∧ v.totalWidth < uint32Size ∧
      ∀ slice ∈ v, max slice.range.left slice.range.right < (nextOf s slice.reg).length := by
  have hwidths : ∀ slice ∈ v, slice.range.width = .ok slice.range.count := fun slice hslice =>
    ((hfollows slice hslice).within (hv.within slice hslice)).width (hcounted slice hslice).1
  have hpos : 0 < uint32Size := by decide
  have hsmall := Nat.mod_lt v.totalWidth hpos
  have hlength : (List.replicate (v.totalWidth % uint32Size) false).length =
      v.totalWidth % uint32Size := List.length_replicate
  obtain ⟨s', hset, hnext, hkept⟩ := hviews (List.replicate (v.totalWidth % uint32Size) false)
    (by rw [bitsCount_total hwidths, hlength])
  have hsome : v ≠ [] := by
    rintro rfl
    cases hnext
  rw [VirtualRegister.nextToSut, getView, if_neg hsome] at hnext
  have hfirst : v.bitsOrdering s' = ordering := by
    obtain ⟨slice, rest, rfl⟩ := List.exists_cons_of_ne_nil hsome
    exact (setToSut_bitsOrdering hset slice.reg).trans (hv.numbered slice List.mem_cons_self)
  rw [hfirst] at hnext
  have hlengths : ∀ slice ∈ v, (Register.nextToSut (s'.registers slice.reg)).length =
      (nextOf s slice.reg).length := fun slice _ => (hkept slice.reg).1
  have hfits := viewSlices_fits hfollows
    (fun slice hslice => by
      have hin := hv.within slice hslice
      have hcount := (hcounted slice hslice).1
      omega)
    (fun slice hslice => by
      rw [hlengths slice hslice]
      exact (hcounted slice hslice).2) hnext
  have hin : ∀ slice ∈ v, max slice.range.left slice.range.right <
      (nextOf s slice.reg).length := fun slice hslice => by
    rw [← hlengths slice hslice]
    exact hfits slice hslice
  refine ⟨hsome, ?_, hin⟩
  obtain ⟨view, hview, hviewLength, -⟩ := viewSlices_named Register.nextToSut
    (fun reg => (nextOf s reg).length)
    (fun slice hslice => (hfollows slice hslice).within (hin slice hslice))
    (fun slice hslice => (hcounted slice hslice).2) hlengths
  obtain rfl := Except.ok.inj (hnext.symm.trans hview)
  rw [namedBits_length, hlength] at hviewLength
  omega

/-- A virtual register is a view exactly when 32 bits count its bits, and what its registers send is as wide as they are. -/
theorem views_iff (hbuilt : ofSlices s slices = .ok v)
    (hfollows : ∀ slice ∈ v, slice.range.Follows (s.registers slice.reg).bitsOrdering)
    (hdisjoint : v.Disjoint) (hcounted : Counted s v) :
    v.Views s ↔ v ≠ [] ∧ v.totalWidth < uint32Size ∧
      ∀ slice ∈ v, max slice.range.left slice.range.right < (nextOf s slice.reg).length := by
  obtain ⟨-, ordering, hv⟩ := ofSlices_ok hbuilt
  have hfollows : ∀ slice ∈ v, slice.range.Follows ordering := fun slice hslice => by
    rw [← hv.numbered slice hslice]
    exact hfollows slice hslice
  exact ⟨fun hviews => hviews.fits hv hfollows hcounted,
    fun ⟨hsome, hsize, hfits⟩ => views_of_fits hv hfollows hdisjoint hcounted hsome hsize hfits⟩

end Views

/-! ### Two registers -/

def twoRegisters (first second : Bits) (ordering : BitsOrdering) : SystemModel where
  identifierMapping := [.register, .register]
  registers id :=
    if id = 0 then .create "first" first false ordering else .create "second" second false ordering
  pendingCounts _ := 0
  iRunLoopCounts _ := 0

/-- Slices of two registers, the bits of the first one in two pieces around those of the second. -/
def interleaved : List RegisterSlice := [⟨0, ⟨2, 1⟩⟩, ⟨1, ⟨1, 0⟩⟩, ⟨0, ⟨0, 0⟩⟩]

theorem interleaved_disjoint : Disjoint interleaved := by
  simp only [Disjoint, interleaved, IndexedRange.Has]
  simp
  omega

theorem views_interleaved :
    Views interleaved (twoRegisters [false, true, false] [true, false] .downto) ↔
      interleaved ≠ [] ∧ totalWidth interleaved < uint32Size ∧
        ∀ slice ∈ interleaved, max slice.range.left slice.range.right <
          (nextOf (twoRegisters [false, true, false] [true, false] .downto) slice.reg).length :=
  have hbuilt : ofSlices (twoRegisters [false, true, false] [true, false] .downto) interleaved =
      .ok interleaved := rfl
  views_iff hbuilt (by decide) interleaved_disjoint (by decide)

def wholeRegisters (width : Nat) : List RegisterSlice :=
  [⟨0, ⟨width - 1, 0⟩⟩, ⟨1, ⟨width - 1, 0⟩⟩]

def zeroRegisters (width : Nat) : SystemModel :=
  twoRegisters (List.replicate width false) (List.replicate width false) .downto

section Wide

variable {width : Nat}

theorem zeroRegisters_bitsCount (reg : Nat) :
    ((zeroRegisters width).registers reg).bitsCount = width := by
  rw [zeroRegisters, twoRegisters]
  dsimp only
  split <;> exact List.length_replicate

theorem zeroRegisters_next_length (reg : Nat) :
    (nextOf (zeroRegisters width) reg).length = width := by
  rw [nextOf, zeroRegisters, twoRegisters]
  dsimp only
  split <;> exact List.length_replicate

theorem zeroRegisters_bitsOrdering (reg : Nat) :
    ((zeroRegisters width).registers reg).bitsOrdering = .downto := by
  rw [zeroRegisters, twoRegisters]
  dsimp only
  split <;> rfl

variable (hpos : 0 < width) (hwidth : width < uint32Size)

include hpos hwidth

theorem append_whole (v : VirtualRegister) (reg : Nat) :
    append (zeroRegisters width) v ⟨reg, ⟨width - 1, 0⟩⟩ =
      .ok (v ++ [⟨reg, ⟨width - 1, 0⟩⟩]) := by
  have hprevious : ¬(v ≠ [] ∧
      BitsOrdering.downto ≠ v.getLast?.elim .undefined fun _ => .downto) := by
    rintro ⟨hne, hother⟩
    rw [List.getLast?_eq_some_getLast hne] at hother
    exact hother rfl
  have hin : ¬max (width - 1) 0 ≥ width := by omega
  simp only [append, appendSlice, zeroRegisters_bitsCount, zeroRegisters_bitsOrdering,
    wholeRange_width hpos hwidth]
  rw [if_neg (by omega), if_neg (by decide)]
  change (if width > width then _ else if max (width - 1) 0 ≥ width then _ else _) = _
  rw [if_neg (Nat.lt_irrefl width), if_neg hin, if_neg hprevious]

theorem wholeRegisters_built :
    ofSlices (zeroRegisters width) (wholeRegisters width) = .ok (wholeRegisters width) := by
  rw [ofSlices, wholeRegisters, List.foldlM_cons, append_whole hpos hwidth]
  change List.foldlM (append (zeroRegisters width)) ([] ++ [_]) [_] = _
  rw [List.foldlM_cons, append_whole hpos hwidth]
  rfl

omit hpos hwidth in
theorem wholeRegisters_follows : ∀ slice ∈ wholeRegisters width,
    slice.range.Follows ((zeroRegisters width).registers slice.reg).bitsOrdering := by
  intro slice hslice
  rw [zeroRegisters_bitsOrdering]
  simp only [wholeRegisters, List.mem_cons, List.not_mem_nil, or_false] at hslice
  rcases hslice with rfl | rfl <;> exact Nat.zero_le _

omit hpos in
theorem wholeRegisters_counted : Counted (zeroRegisters width) (wholeRegisters width) := by
  intro slice _
  rw [zeroRegisters_bitsCount, zeroRegisters_next_length]
  exact ⟨hwidth, hwidth⟩

/-- When 32 bits just do not count the bits of two registers, nothing can be written to them. -/
theorem wholeRegisters_not_views (htotal : width + width = uint32Size) :
    ¬Views (wholeRegisters width) (zeroRegisters width) := by
  intro hviews
  have hcount : bitsCount (wholeRegisters width) = .ok 0 := by
    have hwhole := wholeRange_width hpos hwidth
    simp only [wholeRegisters, bitsCount, hwhole, bind, Except.bind, pure, Except.pure,
      Nat.add_zero, Nat.mod_eq_of_lt hwidth]
    rw [htotal, Nat.mod_self]
  obtain ⟨s', hset, -⟩ := hviews [] hcount
  cases hset

end Wide

/-- Two registers of 2147483648 bits. -/
theorem not_views_large :
    ofSlices (zeroRegisters 2147483648) (wholeRegisters 2147483648) =
        .ok (wholeRegisters 2147483648) ∧
      (∀ slice ∈ wholeRegisters 2147483648, slice.range.Follows
        ((zeroRegisters 2147483648).registers slice.reg).bitsOrdering) ∧
      Disjoint (wholeRegisters 2147483648) ∧
      Counted (zeroRegisters 2147483648) (wholeRegisters 2147483648) ∧
      ¬Views (wholeRegisters 2147483648) (zeroRegisters 2147483648) := by
  have hpos : 0 < 2147483648 := by decide
  have hwidth : 2147483648 < uint32Size := by decide
  exact ⟨wholeRegisters_built hpos hwidth, wholeRegisters_follows,
    by simp [Disjoint, wholeRegisters], wholeRegisters_counted hwidth,
    wholeRegisters_not_views hpos hwidth (by decide)⟩

end VirtualRegister

end Mast
