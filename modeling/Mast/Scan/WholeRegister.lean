import Mast.Scan.PathSelector

/-!
# Virtual registers over a whole register

A virtual register made from one register proxies all its bits. As long as the bits are numbered down to zero, or there is only one, reading it reads the register and writing it writes the register.
-/

namespace Mast

open BinaryVector (IndexedRange)

/-- The register holds values of the given number of bits. A black box could hold others. -/
structure Register.HasWidth (r : Register) (width : Nat) : Prop where
  nextToSut : r.nextToSut.length = width
  lastToSut : r.lastToSut.length = width
  bypass : r.bypass.length = width

namespace Register

variable {r : Register} {width : Nat}

theorem HasWidth.fits (hr : r.HasWidth width) {sequence : Bits} (hsequence : sequence.length = width) :
    r.Fits sequence := by
  by_cases hbox : r.isBlackBox = true
  · exact .inl hbox
  · have hfixed := r.bypass_length (Bool.eq_false_iff.mpr hbox)
    exact .inr (hsequence.trans (hr.bypass.symm.trans hfixed))

theorem HasWidth.of_bypass (hbox : r.isBlackBox = false) : r.HasWidth r.bitsCount where
  nextToSut := (r.nextToSut_length hbox).trans (r.bypass_length hbox).symm
  lastToSut := (r.lastToSut_length hbox).trans (r.bypass_length hbox).symm
  bypass := rfl

theorem setToSut_eq (hr : r.HasWidth width) {sequence : Bits} (hsequence : sequence.length = width) :
    ∃ r', r.setToSut sequence = .ok r' ∧ r'.nextToSut = sequence ∧ r'.lastToSut = r.lastToSut ∧
      r'.bitsOrdering = r.bitsOrdering ∧ r'.HasWidth width := by
  unfold setToSut
  rw [dif_pos (hr.fits hsequence)]
  refine ⟨_, rfl, rfl, rfl, rfl, hsequence, hr.lastToSut, ?_⟩
  change (if r.holdValue then sequence else r.bypass).length = width
  split
  · exact hsequence
  · exact hr.bypass

theorem HasWidth.updateLastToSut (hr : r.HasWidth width) : r.updateLastToSut.HasWidth width :=
  ⟨hr.nextToSut, hr.nextToSut, hr.bypass⟩

end Register

namespace VirtualRegister

theorem wholeRange_width {width : Nat} (hpos : 0 < width) (hwidth : width < uint32Size) :
    IndexedRange.width ⟨width - 1, 0⟩ = .ok width := by
  have hdiff : (1 + if width - 1 > 0 then width - 1 - 0 else 0 - (width - 1)) = width := by
    split <;> omega
  simp only [IndexedRange.width, hdiff, Nat.mod_eq_of_lt hwidth]
  rw [if_neg (by omega)]

theorem adaptedIndex_eq {bits : Bits} {index : Nat} (hbits : bits.length < uint32Size)
    (hindex : index < bits.length) : adaptedIndex bits index = bits.length - 1 - index := by
  have hsmall : index % uint32Size = index := Nat.mod_eq_of_lt (by omega)
  have hsum : bits.length - 1 + (uint32Size - index) = bits.length - 1 - index + uint32Size := by
    omega
  rw [adaptedIndex, hsmall, hsum, Nat.add_mod_right, Nat.mod_eq_of_lt (by omega)]

theorem getSlice_whole {bits : Bits} {ordering : BitsOrdering}
    (hordering : ordering = .upto → bits.length = 1) (hpos : 0 < bits.length)
    (hbits : bits.length < uint32Size) :
    getSlice ⟨bits.length - 1, 0⟩ ordering bits = .ok bits := by
  have hslice := Bits.slice_eq hbits (show 0 + bits.length ≤ bits.length by omega)
  rw [List.drop_zero, List.take_length] at hslice
  rw [getSlice, if_neg (List.ne_nil_of_length_pos hpos)]
  by_cases hupto : ordering = .upto
  · have hleft : bits.length - 1 = 0 := by
      have hone := hordering hupto
      omega
    rw [if_pos hupto, wholeRange_width hpos hbits]
    simp only [hleft]
    exact hslice
  · have hleft := adaptedIndex_eq hbits (show bits.length - 1 < bits.length by omega)
    have hright := adaptedIndex_eq hbits hpos
    have hwidth : IndexedRange.width ⟨0, bits.length - 1⟩ = .ok bits.length := by
      have hdiff : (1 + if 0 > bits.length - 1 then 0 - (bits.length - 1)
          else bits.length - 1 - 0) = bits.length := by
        split <;> omega
      simp only [IndexedRange.width, hdiff, Nat.mod_eq_of_lt hbits]
      rw [if_neg (by omega)]
    rw [if_neg hupto]
    simp only [hleft, hright, Nat.sub_self, Nat.sub_zero, hwidth]
    exact hslice

theorem setSlice_whole {bits value : Bits} {ordering : BitsOrdering}
    (hordering : ordering = .upto → bits.length = 1) (hpos : 0 < bits.length)
    (hbits : bits.length < uint32Size) (hvalue : value.length = bits.length) :
    setSlice ⟨bits.length - 1, 0⟩ ordering bits value = .ok value := by
  have hset := Bits.setSlice_eq hbits (by omega) (show 0 + value.length ≤ bits.length by omega)
  have hsplice : BitPacking.splice bits 0 value = value := by
    rw [BitPacking.splice, List.take_zero, List.nil_append, Nat.zero_add,
      List.drop_of_length_le (by omega), List.append_nil]
  have hoffset : (if ordering = .upto then bits.length - 1
      else adaptedIndex bits (bits.length - 1)) = 0 := by
    split
    · have hone := hordering ‹_›
      omega
    · rw [adaptedIndex_eq hbits (by omega), Nat.sub_self]
  have hsame : ¬bits.length ≠ value.length := by omega
  rw [hsplice] at hset
  rw [setSlice, if_neg (List.ne_nil_of_length_pos hpos), wholeRange_width hpos hbits]
  simp only [hoffset]
  change (if bits.length ≠ value.length then _ else _) = _
  rw [if_neg hsame]
  exact hset

/-- Numbered the other way, a register of several bits cannot be read as a whole. -/
theorem getSlice_whole_upto {bits : Bits} (hmany : 1 < bits.length)
    (hbits : bits.length < uint32Size) (result : Bits) :
    getSlice ⟨bits.length - 1, 0⟩ .upto bits ≠ .ok result := by
  intro hslice
  rw [getSlice, if_neg (List.ne_nil_of_length_pos (by omega)), if_pos rfl,
    wholeRange_width (by omega) hbits] at hslice
  obtain ⟨vector, hvector, -⟩ := Outcome.map_eq_ok.mp hslice
  have hbytes : bits.toVector.data.length = BitPacking.bytesFor bits.length := by
    simp [Bits.toVector]
  have hfew := BitPacking.bytesFor_lt bits.length
  obtain ⟨-, hin, hlast⟩ : _ ∧ bits.length - 1 + bits.length ≤ 8 * bits.toVector.data.length ∧
      (bits.length - 1 + bits.length) % uint32Size ≤ bits.length :=
    BinaryVector.slice_within (by omega) hvector
  rw [hbytes] at hin
  rw [Nat.mod_eq_of_lt (by unfold uint32Size; omega)] at hlast
  omega

theorem getView_whole_upto {s : SystemModel} {reg width : Nat} {getter : Register → Bits}
    (hupto : (s.registers reg).bitsOrdering = .upto) (hmany : 1 < width) (hwidth : width < uint32Size)
    (hgetter : (getter (s.registers reg)).length = width) (view : Bits) :
    (ofRegister reg width).getView s getter ≠ .ok view := by
  subst hgetter
  intro hview
  simp only [getView, ofRegister, if_neg (List.cons_ne_nil _ _), viewSlices, bitsOrdering,
    List.head?_cons, hupto] at hview
  obtain ⟨bits, hbits, -⟩ := Outcome.bind_eq_ok.mp hview
  exact getSlice_whole_upto hmany hwidth bits hbits

/-- A value too short for its range has no bits for it. -/
theorem getSlice_short {bits : Bits} {width right : Nat} {ordering : BitsOrdering}
    (hordering : ordering ≠ .upto) (hshort : bits.length < width) (hwidth : width < uint32Size)
    (result : Bits) : getSlice ⟨width - 1, right⟩ ordering bits ≠ .ok result := by
  intro hslice
  by_cases hempty : bits = []
  · rw [getSlice, if_pos hempty] at hslice
    cases hslice
  · have hbits := List.length_pos_of_ne_nil hempty
    have hleft : adaptedIndex bits (width - 1) = uint32Size - (width - bits.length) := by
      have hsum : bits.length - 1 + (uint32Size - (width - 1)) =
          uint32Size - (width - bits.length) := by omega
      have hsmall : (width - 1) % uint32Size = width - 1 := Nat.mod_eq_of_lt (by omega)
      rw [adaptedIndex, hsmall, hsum, Nat.mod_eq_of_lt (by omega)]
    rw [getSlice, if_neg hempty, if_neg hordering] at hslice
    obtain ⟨count, hcount, hslice⟩ := Outcome.bind_eq_ok.mp hslice
    obtain ⟨vector, hvector, -⟩ := Outcome.map_eq_ok.mp hslice
    have hsome : count ≠ 0 := Nat.ne_of_gt (IndexedRange.width_pos hcount)
    obtain ⟨hfirst, -⟩ : adaptedIndex bits (width - 1) < bits.toVector.usedBits ∧ _ :=
      BinaryVector.slice_within hsome hvector
    have hused : bits.toVector.usedBits = bits.length := BinaryVector.ofBits_usedBits bits .notFixed
    rw [hused, hleft] at hfirst
    omega

end VirtualRegister

/-! ### A register that drives a multiplexer -/

/-- A register of the given width that can be read as a whole, with what it sends next and what it sent last. -/
structure SystemModel.Mux (s : SystemModel) (reg width : Nat) (next last : Bits) : Prop where
  hasWidth : (s.registers reg).HasWidth width
  ordering : (s.registers reg).bitsOrdering = .upto → width = 1
  nextToSut : (s.registers reg).nextToSut = next
  lastToSut : (s.registers reg).lastToSut = last

/-- `UpdateLastToSut` of one register. -/
def SystemModel.updateLastToSut (s : SystemModel) (reg : Nat) : SystemModel :=
  s.setRegister reg (s.registers reg).updateLastToSut

section Mux

variable {s : SystemModel} {reg width : Nat} {next last : Bits} (hmux : s.Mux reg width next last)
include hmux

theorem SystemModel.Mux.next_length : next.length = width :=
  hmux.nextToSut ▸ hmux.hasWidth.nextToSut

theorem SystemModel.Mux.last_length : last.length = width :=
  hmux.lastToSut ▸ hmux.hasWidth.lastToSut

theorem SystemModel.Mux.updateLastToSut : (s.updateLastToSut reg).Mux reg width next next := by
  unfold SystemModel.updateLastToSut
  constructor
  · rw [setRegister_self]
    exact hmux.hasWidth.updateLastToSut
  · rw [setRegister_self]
    exact hmux.ordering
  · rw [setRegister_self]
    exact hmux.nextToSut
  · rw [setRegister_self]
    exact hmux.nextToSut

variable (hpos : 0 < width) (hwidth : width < uint32Size)
include hpos hwidth

theorem VirtualRegister.getView_whole {getter : Register → Bits}
    (hgetter : (getter (s.registers reg)).length = width) :
    (ofRegister reg width).getView s getter = .ok (getter (s.registers reg)) := by
  subst hgetter
  have hslice := getSlice_whole hmux.ordering hpos hwidth
  simp only [getView, ofRegister, if_neg (List.cons_ne_nil _ _), viewSlices, bitsOrdering,
    List.head?_cons, hslice]
  exact congrArg Except.ok (List.append_nil _)

theorem VirtualRegister.nextToSut_whole : (ofRegister reg width).nextToSut s = .ok next :=
  (getView_whole hmux hpos hwidth hmux.hasWidth.nextToSut).trans
    (congrArg Except.ok hmux.nextToSut)

theorem VirtualRegister.lastToSut_whole : (ofRegister reg width).lastToSut s = .ok last :=
  (getView_whole hmux hpos hwidth hmux.hasWidth.lastToSut).trans
    (congrArg Except.ok hmux.lastToSut)

omit hmux in
theorem VirtualRegister.updateSlices_whole {ordering : BitsOrdering}
    (hordering : ordering = .upto → width = 1) {sequence : Bits} {s' : SystemModel}
    (hupdate : updateRegister ⟨reg, ⟨width - 1, 0⟩⟩ ⟨width - 1, 0⟩ sequence s = .ok s') :
    updateSlices sequence ordering (ofRegister reg width) (width - 1) s = .ok s' := by
  have hright : (if ordering = .upto then (width - 1 + (width - 1)) % uint32Size
      else (width - 1 + (uint32Size - (width - 1))) % uint32Size) = 0 := by
    split
    · rw [hordering ‹_›]
      rfl
    · have hsum : width - 1 + (uint32Size - (width - 1)) = uint32Size := by omega
      rw [hsum, Nat.mod_self]
  simp only [ofRegister, updateSlices, wholeRange_width hpos hwidth, hright, bind, Except.bind,
    hupdate]

theorem VirtualRegister.setToSut_whole {sequence : Bits} (hsequence : sequence.length = width) :
    ∃ s', (ofRegister reg width).setToSut sequence s = .ok s' ∧ s'.Mux reg width sequence last := by
  obtain ⟨r', hset, hnext, hlast, hordering, hr'⟩ :=
    Register.setToSut_eq hmux.hasWidth hsequence
  refine ⟨s.setRegister reg r', ?_, ?_⟩
  · subst hsequence
    have hcurrent := hmux.hasWidth.nextToSut
    have hslice := getSlice_whole hmux.ordering hpos hwidth
    have hregValue : setSlice ⟨sequence.length - 1, 0⟩ (s.registers reg).bitsOrdering
        (s.registers reg).nextToSut sequence = .ok sequence := by
      rw [← hcurrent]
      exact setSlice_whole (fun hupto => hcurrent.trans (hmux.ordering hupto)) (hcurrent ▸ hpos)
        (hcurrent ▸ hwidth) hcurrent.symm
    have hupdate : updateRegister ⟨reg, ⟨sequence.length - 1, 0⟩⟩ ⟨sequence.length - 1, 0⟩ sequence
        s = .ok (s.setRegister reg r') := by
      simp only [updateRegister, hslice, hregValue, hset, bind, Except.bind, pure, Except.pure]
    have hcount : (ofRegister reg sequence.length).bitsCount = .ok sequence.length := by
      simp only [ofRegister, bitsCount, wholeRange_width hpos hwidth, bind, Except.bind, pure,
        Except.pure, Nat.add_zero, Nat.mod_eq_of_lt hwidth]
    have hindex : (sequence.length + (uint32Size - 1)) % uint32Size = sequence.length - 1 := by
      have hsum : sequence.length + (uint32Size - 1) = sequence.length - 1 + uint32Size := by
        unfold uint32Size
        omega
      rw [hsum, Nat.add_mod_right, Nat.mod_eq_of_lt (by omega)]
    have hordered : (ofRegister reg sequence.length).bitsOrdering s = .upto →
        sequence.length = 1 := hmux.ordering
    have hregs : ofRegister reg sequence.length ≠ [] := List.cons_ne_nil _ _
    have hupdated := updateSlices_whole hpos hwidth hordered hupdate
    rw [setToSut, if_neg (List.ne_nil_of_length_pos hpos), if_neg hregs]
    split
    · rename_i hupto
      have hfirst : sequence.length - 1 = 0 := by
        have hone := hordered hupto
        omega
      rwa [hupto, hfirst] at hupdated
    · rw [hcount]
      simp only [bind, Except.bind, hindex]
      exact hupdated
  · have hself : (s.setRegister reg r').registers reg = r' := SystemModel.setRegister_self s reg r'
    constructor
    · rw [hself]
      exact hr'
    · rw [hself, hordering]
      exact hmux.ordering
    · rw [hself]
      exact hnext
    · rw [hself, hlast]
      exact hmux.lastToSut

theorem VirtualRegister.setToSut_short {sequence : Bits} (hshort : sequence.length < width)
    (s' : SystemModel) : (ofRegister reg width).setToSut sequence s ≠ .ok s' := by
  intro hset
  by_cases hempty : sequence = []
  · rw [setToSut, if_pos hempty] at hset
    cases hset
  · have hsome := List.length_pos_of_ne_nil hempty
    have hordered : (ofRegister reg width).bitsOrdering s ≠ .upto := by
      intro hupto
      have hone : width = 1 := hmux.ordering hupto
      omega
    have hregs : ofRegister reg width ≠ [] := List.cons_ne_nil _ _
    have hcount : (ofRegister reg width).bitsCount = .ok width := by
      simp only [ofRegister, bitsCount, wholeRange_width hpos hwidth, bind, Except.bind, pure,
        Except.pure, Nat.add_zero, Nat.mod_eq_of_lt hwidth]
    have hindex : (width + (uint32Size - 1)) % uint32Size = width - 1 := by
      have hsum : width + (uint32Size - 1) = width - 1 + uint32Size := by
        unfold uint32Size
        omega
      rw [hsum, Nat.add_mod_right, Nat.mod_eq_of_lt (by omega)]
    rw [setToSut, if_neg hempty, if_neg hregs, if_neg hordered, hcount] at hset
    have hupdate : updateSlices sequence ((ofRegister reg width).bitsOrdering s)
        (ofRegister reg width) (width - 1) s = .ok s' := hindex ▸ hset
    obtain ⟨count, -, hupdate⟩ := Outcome.bind_eq_ok.mp hupdate
    obtain ⟨state, hregister, -⟩ := Outcome.bind_eq_ok.mp hupdate
    obtain ⟨sliced, hsliced, -⟩ := Outcome.bind_eq_ok.mp hregister
    exact getSlice_short hordered hshort hwidth sliced hsliced

/-- A selector that steers such a register leaves its value in what is sent next. -/
theorem PathSelector.steer_whole {p : PathSelector} (hregs : p.muxRegisters = .ofRegister reg width)
    {toSut : Bits} (htoSut : toSut.length = width) :
    ∃ s', p.steer toSut s = .ok s' ∧ s'.Mux reg width toSut last := by
  have hread := VirtualRegister.nextToSut_whole hmux hpos hwidth
  by_cases hsame : next = toSut
  · subst hsame
    refine ⟨s, ?_, hmux⟩
    simp only [steer, hregs, hread, bind, Except.bind, ne_eq, not_true_eq_false, if_false]
    rfl
  · obtain ⟨s', hset, hmux'⟩ := VirtualRegister.setToSut_whole hmux hpos hwidth htoSut
    refine ⟨VirtualRegister.setPending (.ofRegister reg width) s', ?_, ?_⟩
    · simp only [steer, hregs, hread, bind, Except.bind, if_pos (show next ≠ toSut from hsame), hset]
      rfl
    · have hself : (VirtualRegister.setPending (.ofRegister reg width) s').registers reg =
          (s'.registers reg).setPending := SystemModel.setRegister_self s' reg _
      constructor
      · rw [hself]
        exact ⟨hmux'.hasWidth.nextToSut, hmux'.hasWidth.lastToSut, hmux'.hasWidth.bypass⟩
      · rw [hself]
        exact hmux'.ordering
      · rw [hself]
        exact hmux'.nextToSut
      · rw [hself]
        exact hmux'.lastToSut

end Mux

end Mast
