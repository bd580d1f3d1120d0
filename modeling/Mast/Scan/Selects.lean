import Mast.Scan.SelectorSteps

/-!
# A selector selects what it is asked

Selecting a path of a default selector makes it the active one, once its register has been sent. The selectors do so exactly when their constructor agrees with its own check of the register length and the register can be read as a whole.
-/

namespace Mast

open Outcome

/-- What the selector does in a state: each path it selects is active once the register has been sent, alone if the selector is exclusive, and at most one path is active in any case. -/
structure PathSelector.SelectsAsAsked (p : PathSelector) (reg pathsCount : Nat) (exclusive : Prop)
    (s : SystemModel) : Prop where
  selects (path : Nat) : 0 < path → path ≤ pathsCount →
    ∃ s', p.select path s = .ok s' ∧ p.isActive (s'.updateLastToSut reg) path = .ok true ∧
      (exclusive → ∀ other, 0 < other → other ≤ pathsCount → other ≠ path →
        p.isActive (s'.updateLastToSut reg) other = .ok false)
  single (path path' : Nat) : exclusive → 0 < path → path ≤ pathsCount → 0 < path' →
    path' ≤ pathsCount → p.isActive s path = .ok true → p.isActive s path' = .ok true →
      path = path'

namespace PathSelector

theorem zipWith_absorb {op op' : Bool → Bool → Bool} (habsorb : ∀ a b, op' (op a b) b = b)
    {bits mask : Bits} (hlength : bits.length = mask.length) :
    List.zipWith op' (List.zipWith op bits mask) mask = mask := by
  induction bits generalizing mask with
  | nil => simpa using hlength.symm
  | cons bit bits ih =>
    cases mask with
    | nil => rfl
    | cons first mask =>
      rw [List.zipWith_cons_cons, List.zipWith_cons_cons, habsorb, ih (Nat.succ.inj hlength)]

/-- A path that an N-hot selector has just added to what is sent is selected. -/
theorem accepted_selectOp {p : PathSelector} (hkind : p.kind = .nHot) {next value : Bits}
    (hlength : next.length = value.length) :
    p.accepted (List.zipWith (selectOp p.invertedBits) next value) value = true := by
  rw [accepted, if_pos hkind, zipWith_absorb (keepOp_selectOp p.invertedBits) hlength,
    beq_self_eq_true]

/-- A selector reads its register before it changes it. -/
theorem select_reads {p : PathSelector} {path : Nat} {s s' : SystemModel}
    (hselect : p.select path s = .ok s') : ∃ next, p.muxRegisters.nextToSut s = .ok next := by
  have hsteer {toSut : Bits} (h : p.steer toSut s = .ok s') :
      ∃ next, p.muxRegisters.nextToSut s = .ok next := by
    obtain ⟨next, hnext, -⟩ := bind_eq_ok.mp h
    exact ⟨next, hnext⟩
  unfold select at hselect
  cases hp : p.kind with
  | tableBased =>
    rw [hp] at hselect
    obtain ⟨value, -, h⟩ := bind_eq_ok.mp hselect
    exact hsteer h
  | oneHot =>
    rw [hp] at hselect
    obtain ⟨value, -, h⟩ := bind_eq_ok.mp hselect
    exact hsteer h
  | nHot =>
    rw [hp] at hselect
    obtain ⟨mask, -, h⟩ := bind_eq_ok.mp hselect
    obtain ⟨next, hnext, -⟩ := bind_eq_ok.mp h
    exact ⟨next, hnext⟩

/-- A value that is too short for the register cannot be selected. -/
theorem select_short {p : PathSelector} {s s' : SystemModel} {reg width path : Nat}
    {next last value : Bits} (hregs : p.muxRegisters = .ofRegister reg width) (hpos : 0 < width)
    (hwidth : width < uint32Size) (hmux : s.Mux reg width next last) (hkind : p.kind = .tableBased)
    (hentry : p.entry p.selectTable path = .ok value) (hshort : value.length < width) :
    p.select path s ≠ .ok s' := by
  intro hselect
  unfold select at hselect
  rw [hkind] at hselect
  simp only [hentry, bind, Except.bind, steer, hregs,
    VirtualRegister.nextToSut_whole hmux hpos hwidth] at hselect
  have hapart : next ≠ value := by
    rintro rfl
    exact Nat.ne_of_lt hshort hmux.next_length
  rw [if_pos hapart] at hselect
  obtain ⟨written, hwritten, -⟩ := bind_eq_ok.mp hselect
  exact VirtualRegister.setToSut_short hmux hpos hwidth hshort written hwritten

end PathSelector

namespace DefaultSelector

variable {kind : DefaultSelector} {properties : SelectorProperty} {reg width pathsCount : Nat}
  {ordering : BitsOrdering}

theorem selectedValue_exclusive (hexclusive : kind ≠ .nHot) {next : Bits} {path : Nat}
    (hpath : 0 < path) :
    kind.selectedValue properties width next path = kind.code properties width path := by
  cases kind with
  | binary => rfl
  | oneHot => rw [selectedValue, if_neg (by omega)]
  | nHot => exact absurd rfl hexclusive

/-- A selected path is the value that is sent. -/
theorem accepted_selectedValue {next : Bits} (hnext : next.length = width) {path : Nat}
    (hpath : 0 < path) :
    (kind.selector properties reg width pathsCount).accepted
      (kind.selectedValue properties width next path) (kind.code properties width path) = true := by
  by_cases hkind : kind = .nHot
  · subst hkind
    rw [selectedValue, if_neg (by omega)]
    exact PathSelector.accepted_selectOp rfl (hnext.trans (code_length width path).symm)
  · rw [selectedValue_exclusive hkind hpath,
      PathSelector.accepted_iff fun h => hkind (selectorKind_eq_nHot.mp h)]

theorem Builds.selectsAsAsked (hwidth : width < uint32Size)
    (hlength : kind.checkRegisterLength properties width pathsCount = .ok ())
    (hbuilds : kind.Builds properties width pathsCount) (hpos : 0 < width) {s : SystemModel}
    {next last : Bits} (hmux : s.Mux reg width next last) :
    (kind.selector properties reg width pathsCount).SelectsAsAsked reg pathsCount (kind ≠ .nHot)
      s := by
  have haccepted (hexclusive : kind ≠ .nHot) (value : Bits) (path : Nat) :
      (kind.selector properties reg width pathsCount).accepted value
        (kind.code properties width path) = true ↔ value = kind.code properties width path :=
    PathSelector.accepted_iff fun h => hexclusive (selectorKind_eq_nHot.mp h)
  constructor
  · intro path hpath hle
    obtain ⟨s', hselect, hmux'⟩ := @select_selector kind properties s reg width pathsCount path next
      last hpos hwidth hmux (by omega) hle
    have hsent := hmux'.updateLastToSut
    refine ⟨s', hselect, ?_, ?_⟩
    · rw [isActive_selector hpos hwidth hsent hle]
      exact congrArg Except.ok (accepted_selectedValue hmux.next_length hpath)
    · intro hexclusive other hother hle' hne
      rw [isActive_selector hpos hwidth hsent hle', selectedValue_exclusive hexclusive hpath]
      refine congrArg Except.ok (Bool.eq_false_iff.mpr fun htrue => hne ?_)
      exact (hbuilds.code_injective hlength hpath hle hother hle'
        ((haccepted hexclusive _ _).mp htrue)).symm
  · intro path path' hexclusive hpath hle hpath' hle' hactive hactive'
    rw [isActive_selector hpos hwidth hmux hle] at hactive
    rw [isActive_selector hpos hwidth hmux hle'] at hactive'
    have hvalue := (haccepted hexclusive _ _).mp (Except.ok.inj hactive)
    have hvalue' := (haccepted hexclusive _ _).mp (Except.ok.inj hactive')
    exact hbuilds.code_injective hlength hpath hle hpath' hle' (hvalue.symm.trans hvalue')

/-! ### The conditions are needed -/

def createdModel (value : Bits) (ordering : BitsOrdering) : SystemModel where
  identifierMapping := []
  registers := fun _ => Register.create "" value false ordering
  pendingCounts := fun _ => 0
  iRunLoopCounts := fun _ => 0

theorem createdModel_mux (reg : Nat) {value : Bits} (hvalue : value.length = width)
    (hordering : ordering = .upto → width = 1) :
    (createdModel value ordering).Mux reg width value value where
  hasWidth := ⟨hvalue, hvalue, hvalue⟩
  ordering := hordering
  nextToSut := rfl
  lastToSut := rfl

/-- A binary selector over a register of more than 32 bits cannot select its first path. -/
theorem width_le_of_select {p : PathSelector} {s' : SystemModel} (hpaths : 0 < pathsCount)
    (hwidth : width < uint32Size)
    (hcreate : create .binary reg width pathsCount properties = .ok p)
    (hordering : ordering = .upto → width = 1)
    (hselect : p.select 1 (createdModel (Bits.zeros width) ordering) = .ok s') : width ≤ 32 := by
  by_contra hwide
  obtain ⟨table, htable, hcreate⟩ := bind_eq_ok.mp hcreate
  obtain ⟨deselectTable, -, hcreate⟩ := bind_eq_ok.mp hcreate
  obtain ⟨hpos, -, rfl⟩ := createFor_ok hcreate
  obtain ⟨value, hvalue, hshort⟩ := createSelectTable_binary_wide hpaths (by omega) htable
  have hin := (List.getElem?_eq_some_iff.mp hvalue).1
  exact PathSelector.select_short rfl hpos hwidth
    (createdModel_mux reg (Bits.zeros_length width) hordering) rfl
    (PathSelector.entry_eq hin hvalue) hshort hselect

/-- The constructor succeeds, and whatever its register holds the selector selects what it is asked. -/
def Selects (kind : DefaultSelector) (properties : SelectorProperty) (reg width pathsCount : Nat)
    (ordering : BitsOrdering) : Prop :=
  ∃ p, kind.create reg width pathsCount properties = .ok p ∧
    ∀ s : SystemModel, (s.registers reg).HasWidth width →
      (s.registers reg).bitsOrdering = ordering →
        p.SelectsAsAsked reg pathsCount (kind ≠ .nHot) s

/-- For a register of an accepted length, the selector works exactly when its constructor builds the tables and the register can be read as a whole. -/
theorem selects_iff (hpaths : 0 < pathsCount) (hwidth : width < uint32Size)
    (hlength : kind.checkRegisterLength properties width pathsCount = .ok ()) :
    kind.Selects properties reg width pathsCount ordering ↔
      kind.Builds properties width pathsCount ∧ (ordering = .upto → width = 1) := by
  constructor
  · rintro ⟨p, hcreate, hasked⟩
    obtain ⟨hpos, hregs⟩ := create_muxRegisters hcreate
    have hhas : ((createdModel (Bits.zeros width) ordering).registers reg).HasWidth width :=
      ⟨Bits.zeros_length width, Bits.zeros_length width, Bits.zeros_length width⟩
    obtain ⟨s', hselect, -⟩ := (hasked _ hhas rfl).selects 1 (by omega) hpaths
    have hordering : ordering = .upto → width = 1 := by
      intro hupto
      by_contra hmany
      obtain ⟨next, hread⟩ := PathSelector.select_reads hselect
      rw [hregs] at hread
      exact VirtualRegister.getView_whole_upto (show _ = BitsOrdering.upto from hupto) (by omega)
        hwidth hhas.nextToSut next hread
    refine ⟨Builds.of_create hwidth (fun hkind => ?_) hlength hcreate, hordering⟩
    subst hkind
    exact width_le_of_select hpaths hwidth hcreate hordering hselect
  · rintro ⟨hbuilds, hordering⟩
    have hpos := hbuilds.width_pos hpaths hlength
    refine ⟨_, hbuilds.create_eq hpaths hlength, fun s hhas hordered => ?_⟩
    exact hbuilds.selectsAsAsked hwidth hlength hpos
      ⟨hhas, fun hupto => hordering (hordered.symm.trans hupto), rfl, rfl⟩

theorem selects_two_paths :
    Selects .oneHot ⟨true, false, false, false⟩ 0 2 2 .downto :=
  (selects_iff (by decide) (by decide) rfl).mpr
    ⟨⟨by decide, nofun, fun _ hstart => absurd hstart (by decide), by decide,
      fun _ hstart => absurd hstart (by decide)⟩, nofun⟩

/-- With `StartAtZero` a register of one bit is long enough for two paths, but a bit is set for each of them. -/
theorem selects_startAtZero :
    ¬∀ (kind : DefaultSelector) (properties : SelectorProperty) (reg width pathsCount : Nat)
      (ordering : BitsOrdering), 0 < pathsCount → width < uint32Size →
        kind.checkRegisterLength properties width pathsCount = .ok () →
          kind.Selects properties reg width pathsCount ordering := by
  intro hall
  have hlength : checkRegisterLength .oneHot ⟨true, false, false, true⟩ 1 2 = .ok () := rfl
  obtain ⟨p, hcreate, -⟩ := hall .oneHot ⟨true, false, false, true⟩ 0 1 2 .downto (by decide)
    (by decide) hlength
  have hbuilds : Builds .oneHot ⟨true, false, false, true⟩ 1 2 :=
    Builds.of_create (by decide) nofun hlength hcreate
  have hle := hbuilds.startAtZero (by decide) rfl
  omega

end DefaultSelector

end Mast
