import Mast.Scan.DefaultSelector

/-!
# What the calls of a selector do to its register

For a selector that drives one whole register, each call is a change of the value that the register sends next. `Mux` holds that value and the one sent last, so what follows speaks of these two only.
-/

namespace Mast

open Outcome

namespace PathSelector

theorem entry_eq {p : PathSelector} {table : List Bits} {path : Nat} {value : Bits}
    (hpath : path < p.selectTable.length) (hvalue : table[path]? = some value) :
    p.entry table path = .ok value := by
  rw [entry, if_neg (by omega), hvalue]

/-- The path that `Select` selects: a one-hot selector that has to select a path takes the first one for none. -/
def selectedPath (p : PathSelector) (path : Nat) : Nat :=
  if p.kind = .oneHot ∧ p.canSelectNone = false ∧ path = 0 then 1 else path

/-- How an N-hot selector combines a value with a mask that selects. -/
def selectOp (invertedBits : Bool) : Bool → Bool → Bool :=
  if invertedBits then (· && ·) else (· || ·)

/-- How it combines a value with a mask that keeps bits. -/
def keepOp (invertedBits : Bool) : Bool → Bool → Bool :=
  if invertedBits then (· || ·) else (· && ·)

theorem combine_eq (op : Bool → Bool → Bool) {bits rhs : Bits} (hlength : rhs.length = bits.length) :
    combine op bits rhs = .ok (List.zipWith op bits rhs) :=
  if_neg (not_not.mpr hlength)

theorem selectMasked_eq (p : PathSelector) {bits mask : Bits} (hlength : mask.length = bits.length) :
    p.selectMasked bits mask = .ok (List.zipWith (selectOp p.invertedBits) bits mask) := by
  unfold selectMasked selectOp
  split <;> exact combine_eq _ hlength

theorem keepMasked_eq (p : PathSelector) {bits mask : Bits} (hlength : mask.length = bits.length) :
    p.keepMasked bits mask = .ok (List.zipWith (keepOp p.invertedBits) bits mask) := by
  unfold keepMasked keepOp
  split <;> exact combine_eq _ hlength

theorem keepOp_selectOp (invertedBits a b : Bool) :
    keepOp invertedBits (selectOp invertedBits a b) b = b := by
  cases invertedBits <;> cases a <;> cases b <;> rfl

/-- Whether a value is one that selects the path of an entry. -/
def accepted (p : PathSelector) (value selectValue : Bits) : Bool :=
  if p.kind = .nHot then List.zipWith (keepOp p.invertedBits) value selectValue == selectValue
  else value == selectValue

theorem accepts_eq (p : PathSelector) {value selectValue : Bits}
    (hlength : selectValue.length = value.length) :
    p.accepts value selectValue = .ok (p.accepted value selectValue) := by
  unfold accepts accepted
  cases hp : p.kind with
  | tableBased => rfl
  | oneHot => rfl
  | nHot =>
    rw [if_pos rfl, p.keepMasked_eq hlength]
    rfl

theorem accepted_iff {p : PathSelector} (hkind : p.kind ≠ .nHot) {value selectValue : Bits} :
    p.accepted value selectValue = true ↔ value = selectValue := by
  rw [accepted, if_neg hkind, beq_iff_eq]

section Mux

variable {p : PathSelector} {s : SystemModel} {reg width path : Nat} {next last value : Bits}
  (hregs : p.muxRegisters = .ofRegister reg width) (hpos : 0 < width) (hwidth : width < uint32Size)
  (hmux : s.Mux reg width next last)
include hregs hpos hwidth hmux

theorem isActive_mux (hentry : p.entry p.selectTable path = .ok value)
    (hvalue : value.length = width) : p.isActive s path = .ok (p.accepted last value) := by
  have hread := VirtualRegister.lastToSut_whole hmux hpos hwidth
  rw [← p.accepts_eq (hvalue.trans hmux.last_length.symm)]
  simp only [isActive, hentry, hregs, hread, bind, Except.bind]

theorem isSelected_mux (hentry : p.entry p.selectTable path = .ok value)
    (hvalue : value.length = width) : p.isSelected s path = .ok (p.accepted next value) := by
  have hread := VirtualRegister.nextToSut_whole hmux hpos hwidth
  rw [← p.accepts_eq (hvalue.trans hmux.next_length.symm)]
  simp only [isSelected, hentry, hregs, hread, bind, Except.bind]

theorem select_mux (hkind : p.kind ≠ .nHot)
    (hentry : p.entry p.selectTable (p.selectedPath path) = .ok value)
    (hvalue : value.length = width) :
    ∃ s', p.select path s = .ok s' ∧ s'.Mux reg width value last := by
  obtain ⟨s', hsteer, hmux'⟩ := steer_whole hmux hpos hwidth hregs hvalue
  refine ⟨s', ?_, hmux'⟩
  unfold select
  cases hp : p.kind with
  | tableBased =>
    have hpath : p.selectedPath path = path := by simp [selectedPath, hp]
    rw [hpath] at hentry
    simp only [hentry, bind, Except.bind, hsteer]
  | oneHot =>
    have hpath : p.selectedPath path =
        if !p.canSelectNone && path == 0 then 1 else path := by
      simp [selectedPath, hp]
    rw [hpath] at hentry
    simp only [hentry, bind, Except.bind, hsteer]
  | nHot => exact absurd hp hkind

theorem select_nHot_mux (hkind : p.kind = .nHot) (hentry : p.entry p.selectTable path = .ok value)
    (hvalue : value.length = width) :
    ∃ s', p.select path s = .ok s' ∧ s'.Mux reg width
      (if path = 0 then value else List.zipWith (selectOp p.invertedBits) next value) last := by
  have hread := VirtualRegister.nextToSut_whole hmux hpos hwidth
  have hnext := hmux.next_length
  unfold select
  simp only [hkind, hentry, hregs, hread, bind, Except.bind]
  by_cases hnone : path = 0
  · rw [if_pos hnone, if_pos hnone]
    exact steer_whole hmux hpos hwidth hregs hvalue
  · rw [if_neg hnone, if_neg hnone, p.selectMasked_eq (hvalue.trans hnext.symm)]
    exact steer_whole hmux hpos hwidth hregs (by rw [List.length_zipWith]; omega)

theorem deselect_mux {sent : Bits} (hkind : p.kind ≠ .nHot)
    (hentry : p.entry p.deselectTable path = .ok value) (hfirst : p.orFirstPath value = .ok sent)
    (hsent : sent.length = width) :
    ∃ s', p.deselect path s = .ok s' ∧ s'.Mux reg width sent last := by
  obtain ⟨s', hsteer, hmux'⟩ := steer_whole hmux hpos hwidth hregs hsent
  refine ⟨s', ?_, hmux'⟩
  unfold deselect
  cases hp : p.kind with
  | tableBased => simp only [hentry, hfirst, bind, Except.bind, hsteer]
  | oneHot => simp only [hentry, hfirst, bind, Except.bind, hsteer]
  | nHot => exact absurd hp hkind

theorem deselect_nHot_eq {sent : Bits} (hkind : p.kind = .nHot)
    (hentry : p.entry p.deselectTable path = .ok value) (hvalue : value.length = width)
    (hfirst : p.orFirstPath (List.zipWith (keepOp p.invertedBits) next value) = .ok sent) :
    p.deselect path s =
      if p.canSelectNone = false ∧ some sent = p.selectTable[0]? then
        .error (.logicError
          "Try to select no path, even though selector is configured to at least select one")
      else p.steer sent s := by
  have hread := VirtualRegister.nextToSut_whole hmux hpos hwidth
  have hkeep := p.keepMasked_eq (hvalue.trans hmux.next_length.symm)
  unfold deselect
  simp only [hkind, hentry, hregs, hread, hkeep, hfirst, bind, Except.bind]

theorem deselect_nHot_mux {sent : Bits} (hkind : p.kind = .nHot)
    (hentry : p.entry p.deselectTable path = .ok value) (hvalue : value.length = width)
    (hfirst : p.orFirstPath (List.zipWith (keepOp p.invertedBits) next value) = .ok sent)
    (hsent : sent.length = width) :
    (∃ s', p.deselect path s = .ok s' ∧ s'.Mux reg width sent last) ∨
      ∃ fault, p.deselect path s = .error fault := by
  have hdeselect := deselect_nHot_eq hregs hpos hwidth hmux hkind hentry hvalue hfirst
  by_cases hclosed : p.canSelectNone = false ∧ some sent = p.selectTable[0]?
  · exact .inr ⟨_, hdeselect.trans (if_pos hclosed)⟩
  · rw [hdeselect, if_neg hclosed]
    exact .inl (steer_whole hmux hpos hwidth hregs hsent)

end Mux

end PathSelector

/-! ### The default selectors -/

namespace DefaultSelector

variable {kind : DefaultSelector} {properties : SelectorProperty}

theorem plainCode_length (width path : Nat) :
    (kind.plainCode properties width path).length = width := by
  by_cases hkind : kind = .binary
  · subst hkind
    exact BinaryVector.numberBits_length _ _
  · rw [plainCode_hot hkind]
    split
    · exact Bits.zeros_length width
    · exact hotBit_length width _ _

@[simp] theorem code_length (width path : Nat) :
    (kind.code properties width path).length = width := by
  unfold code
  split
  · rw [Bits.toggled_length, plainCode_length]
  · exact plainCode_length width path

theorem code_eq_iff {width path path' : Nat} :
    kind.code properties width path = kind.code properties width path' ↔
      kind.plainCode properties width path = kind.plainCode properties width path' := by
  unfold code
  split
  · exact ⟨Bits.toggled_injective, congrArg Bits.toggled⟩
  · exact Iff.rfl

theorem zeroEntries_pos : 0 < kind.zeroEntries properties := by
  unfold zeroEntries
  split <;> omega

theorem zeroEntries_le : kind.zeroEntries properties ≤ 2 := by
  unfold zeroEntries
  split <;> omega

theorem selector_size {reg width pathsCount : Nat} :
    (kind.selector properties reg width pathsCount).selectTable.length =
      pathsCount + kind.zeroEntries properties := by
  rw [selector, List.length_map, List.length_range]

theorem selector_entry_lt {reg width pathsCount path : Nat}
    (hin : path < pathsCount + kind.zeroEntries properties) :
    (kind.selector properties reg width pathsCount).entry
        (kind.selector properties reg width pathsCount).selectTable path =
      .ok (kind.code properties width path) := by
  refine PathSelector.entry_eq (by rwa [selector_size]) ?_
  simp [selector, List.getElem?_range hin]

theorem selector_entry {reg width pathsCount path : Nat} (hpath : path ≤ pathsCount) :
    (kind.selector properties reg width pathsCount).entry
        (kind.selector properties reg width pathsCount).selectTable path =
      .ok (kind.code properties width path) := by
  have hzero : 0 < kind.zeroEntries properties := zeroEntries_pos
  exact selector_entry_lt (by omega)

theorem Builds.code_injective {width pathsCount path path' : Nat}
    (hlength : kind.checkRegisterLength properties width pathsCount = .ok ())
    (hbuilds : kind.Builds properties width pathsCount) (hpath : 0 < path) (hle : path ≤ pathsCount)
    (hpath' : 0 < path') (hle' : path' ≤ pathsCount)
    (hcode : kind.code properties width path = kind.code properties width path') :
    path = path' := by
  have hplain := code_eq_iff.mp hcode
  by_cases hkind : kind = .binary
  · subst hkind
    obtain ⟨-, hfits⟩ := checkRegisterLength_binary (by omega) hlength
    unfold plainCode at hplain
    cases hnone : properties.canSelectNone with
    | true =>
      simp only [hnone, if_true] at hplain hfits
      exact BinaryVector.numberBits_injective (by omega) (by omega) hplain
    | false =>
      simp only [hnone, if_neg Bool.false_ne_true] at hplain hfits
      have hpred := BinaryVector.numberBits_injective (by omega) (by omega) hplain
      omega
  · have hwidth := hbuilds.width_le hkind hlength
    have hzeros : 0 < kind.zeroEntries properties := zeroEntries_pos
    have hfew : kind.zeroEntries properties ≤ 2 := zeroEntries_le
    rw [plainCode_hot hkind, plainCode_hot hkind] at hplain
    by_cases hfirst : path < kind.zeroEntries properties
    · by_cases hfirst' : path' < kind.zeroEntries properties
      · omega
      · rw [if_pos hfirst, if_neg hfirst'] at hplain
        exact absurd hplain.symm (hotBit_ne_zeros _ (by omega))
    · by_cases hfirst' : path' < kind.zeroEntries properties
      · rw [if_neg hfirst, if_pos hfirst'] at hplain
        exact absurd hplain (hotBit_ne_zeros _ (by omega))
      · rw [if_neg hfirst, if_neg hfirst'] at hplain
        have hindex := hotBit_injective (by omega) (by omega) hplain
        omega

theorem selectorKind_eq_nHot : kind.selectorKind = .nHot ↔ kind = .nHot := by
  cases kind <;> decide

def selectedValue (kind : DefaultSelector) (properties : SelectorProperty) (width : Nat)
    (next : Bits) (path : Nat) : Bits :=
  match kind with
  | .binary => code .binary properties width path
  | .oneHot =>
    code .oneHot properties width (if properties.canSelectNone = false ∧ path = 0 then 1 else path)
  | .nHot =>
    if path = 0 then code .nHot properties width 0
    else List.zipWith (PathSelector.selectOp properties.invertedBits) next
      (code .nHot properties width path)

section Mux

variable {s : SystemModel} {reg width pathsCount path : Nat} {next last : Bits} (hpos : 0 < width)
  (hwidth : width < uint32Size) (hmux : s.Mux reg width next last)
include hpos hwidth hmux

theorem isActive_selector (hpath : path ≤ pathsCount) :
    (kind.selector properties reg width pathsCount).isActive s path =
      .ok ((kind.selector properties reg width pathsCount).accepted last
        (kind.code properties width path)) :=
  PathSelector.isActive_mux rfl hpos hwidth hmux (selector_entry hpath) (code_length width path)

theorem isSelected_selector (hpath : path ≤ pathsCount) :
    (kind.selector properties reg width pathsCount).isSelected s path =
      .ok ((kind.selector properties reg width pathsCount).accepted next
        (kind.code properties width path)) :=
  PathSelector.isSelected_mux rfl hpos hwidth hmux (selector_entry hpath) (code_length width path)

theorem select_selector (hpaths : 0 < pathsCount) (hpath : path ≤ pathsCount) :
    ∃ s', (kind.selector properties reg width pathsCount).select path s = .ok s' ∧
      s'.Mux reg width (kind.selectedValue properties width next path) last := by
  cases kind with
  | binary =>
    exact PathSelector.select_mux (p := selector .binary properties reg width pathsCount) rfl hpos
      hwidth hmux SelectorKind.noConfusion (selector_entry hpath) (code_length width path)
  | oneHot =>
    have hfirst : (if properties.canSelectNone = false ∧ path = 0 then 1 else path) ≤
        pathsCount := by
      split <;> omega
    have hselected : (selector .oneHot properties reg width pathsCount).selectedPath path =
        if properties.canSelectNone = false ∧ path = 0 then 1 else path := by
      simp [PathSelector.selectedPath, selector, selectorKind]
    have hentry := @selector_entry .oneHot properties reg width pathsCount _ hfirst
    rw [← hselected] at hentry
    have hselect := PathSelector.select_mux
      (p := selector .oneHot properties reg width pathsCount) rfl hpos hwidth hmux
      SelectorKind.noConfusion hentry (code_length width _)
    rwa [hselected] at hselect
  | nHot =>
    obtain ⟨s', hselect, hmux'⟩ := PathSelector.select_nHot_mux
      (p := selector .nHot properties reg width pathsCount) rfl hpos hwidth hmux rfl
      (selector_entry hpath) (code_length width path)
    refine ⟨s', hselect, ?_⟩
    unfold selectedValue
    by_cases hnone : path = 0
    · subst hnone
      exact hmux'
    · rw [if_neg hnone] at hmux' ⊢
      exact hmux'

end Mux

end DefaultSelector

end Mast
