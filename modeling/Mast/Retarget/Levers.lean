import Mast.Lib.Multiplexers
import Mast.Retarget.DataCycles
import Mast.Scan.NHotPaths

/-!
# The selectors as multiplexers

The linker of a MIB is driven by one register, through a default selector. The value of that register is the lever of a multiplexer: a binary and a one-hot selector have one value for each path, and an N-hot selector has one bit for each.
-/

namespace Mast

open Multiplexers Outcome

/-! ### What steering leaves alone -/

/-- The registers have bits alike and expect the same ones, with the same mask. -/
structure Register.SameSetup (r r' : Register) : Prop where
  mustCheckExpected : r'.mustCheckExpected = r.mustCheckExpected
  expectedFromSut : r'.expectedFromSut = r.expectedFromSut
  dontCareMask : r'.dontCareMask = r.dontCareMask
  bitsOrdering : r'.bitsOrdering = r.bitsOrdering
  isBlackBox : r'.isBlackBox = r.isBlackBox
  fixedSize : r'.fixedSize = r.fixedSize

/-- So do all registers of a model. -/
def SystemModel.SameSetup (s s' : SystemModel) : Prop :=
  ∀ id, (s.registers id).SameSetup (s'.registers id)

theorem Register.SameSetup.refl (r : Register) : r.SameSetup r := ⟨rfl, rfl, rfl, rfl, rfl, rfl⟩

theorem Register.SameSetup.trans {r r' r'' : Register} (h : r.SameSetup r')
    (h' : r'.SameSetup r'') : r.SameSetup r'' :=
  ⟨h'.1.trans h.1, h'.2.trans h.2, h'.3.trans h.3, h'.4.trans h.4, h'.5.trans h.5,
    h'.6.trans h.6⟩

theorem Register.setToSut_sameSetup {r r' : Register} {sequence : Bits}
    (hset : r.setToSut sequence = .ok r') : r.SameSetup r' := by
  unfold setToSut at hset
  split at hset
  · obtain rfl := Except.ok.inj hset
    exact ⟨rfl, rfl, rfl, rfl, rfl, rfl⟩
  · cases hset

namespace SystemModel

instance : IsTrans SystemModel SameSetup where
  trans _ _ _ h h' id := (h id).trans (h' id)

theorem SameSetup.refl (s : SystemModel) : s.SameSetup s := fun _ => .refl _

theorem setRegister_sameSetup {s : SystemModel} {id : Nat} {r : Register}
    (hr : (s.registers id).SameSetup r) : s.SameSetup (s.setRegister id r) := by
  intro other
  by_cases hother : other = id
  · rw [hother, setRegister_self]
    exact hr
  · rw [setRegister_other s r hother]
    exact .refl _

end SystemModel

namespace VirtualRegister

/-- What setting the value of a register keeps, setting that of a virtual register keeps. -/
theorem setToSut_keeps {R : SystemModel → SystemModel → Prop} [IsTrans SystemModel R]
    (hrefl : ∀ s, R s s) (hset : ∀ s reg sequence r,
      ((s : SystemModel).registers reg).setToSut sequence = .ok r → R s (s.setRegister reg r))
    (v : VirtualRegister) (sequence : Bits) (s : SystemModel) :
    Keeps R s (v.setToSut sequence s) := by
  have hslices (ordering : BitsOrdering) (v : VirtualRegister) (index : Nat) (s : SystemModel) :
      Keeps R s (updateSlices sequence ordering v index s) := by
    induction v generalizing index s with
    | nil => exact Keeps.ok (hrefl s)
    | cons slice rest ih =>
      refine Keeps.read fun width _ => Keeps.bind ?_ fun s' _ => ih _ s'
      refine Keeps.read fun slicedValue _ => Keeps.read fun regValue _ => ?_
      exact Keeps.read fun r hr => Keeps.ok (hset s slice.reg regValue r hr)
  unfold setToSut
  refine Keeps.ite (fun _ => Keeps.error _) fun _ => Keeps.ite (fun _ => Keeps.error _) fun _ => ?_
  refine Keeps.ite (fun _ => hslices _ v _ s) fun _ => ?_
  exact Keeps.read fun count _ => hslices _ v _ s

theorem setToSut_sameSetup (v : VirtualRegister) (sequence : Bits) (s : SystemModel) :
    Keeps SystemModel.SameSetup s (v.setToSut sequence s) :=
  setToSut_keeps .refl (fun _ _ _ _ hr =>
    SystemModel.setRegister_sameSetup (Register.setToSut_sameSetup hr)) v sequence s

theorem setPending_sameSetup (v : VirtualRegister) (s : SystemModel) :
    s.SameSetup (v.setPending s) := by
  induction v generalizing s with
  | nil => exact .refl s
  | cons slice rest ih =>
    have hfirst : s.SameSetup (s.setRegister slice.reg (s.registers slice.reg).setPending) :=
      SystemModel.setRegister_sameSetup ⟨rfl, rfl, rfl, rfl, rfl, rfl⟩
    exact IsTrans.trans _ _ _ hfirst (ih _)

end VirtualRegister

theorem PathSelector.steer_sameSetup (p : PathSelector) (toSut : Bits) (s : SystemModel) :
    Keeps SystemModel.SameSetup s (p.steer toSut s) := by
  refine Keeps.read fun _ _ => Keeps.ite (fun _ => ?_) fun _ => Keeps.ok (.refl s)
  exact Keeps.bind (VirtualRegister.setToSut_sameSetup _ toSut s) fun s' _ =>
    Keeps.ok (VirtualRegister.setPending_sameSetup _ s')

/-! ### Turning a lever -/

/-- The register has been given a value to send, and is pending if it is a new one. Nothing else has changed. -/
structure SystemModel.Turned (s : SystemModel) (reg width : Nat) (value : Bits) (s' : SystemModel) :
    Prop where
  steered : SystemModel.Steered [reg] s s'
  sameSetup : s.SameSetup s'
  hasWidth : (s'.registers reg).HasWidth width
  nextToSut : (s'.registers reg).nextToSut = value
  kept : (s.registers reg).nextToSut = value → s' = s
  flagged : (s.registers reg).nextToSut ≠ value → (s'.registers reg).pendingCount = 1

section Mux

variable {p : PathSelector} {s : SystemModel} {reg width path : Nat} {next last value : Bits}
  (hregs : p.muxRegisters = .ofRegister reg width) (hpos : 0 < width) (hwidth : width < uint32Size)
  (hmux : s.Mux reg width next last)
include hregs hpos hwidth hmux

theorem PathSelector.steer_turned (hvalue : value.length = width) :
    ∃ s', p.steer value s = .ok s' ∧ s.Turned reg width value s' := by
  have hread := VirtualRegister.nextToSut_whole hmux hpos hwidth
  obtain ⟨s', hsteer, hmux'⟩ := steer_whole hmux hpos hwidth hregs hvalue
  have hids : p.muxRegisters.identifiers ⊆ [reg] := by
    rw [hregs]
    exact List.Subset.refl _
  refine ⟨s', hsteer, ⟨steer_steered hids value s s' hsteer, steer_sameSetup p value s s' hsteer,
    hmux'.hasWidth, hmux'.nextToSut, fun hsame => ?_, fun hnew => ?_⟩⟩
  · rw [hmux.nextToSut] at hsame
    simp only [steer, hregs, hread, bind, Except.bind, hsame, ne_eq, not_true_eq_false,
      if_false] at hsteer
    exact (Except.ok.inj hsteer).symm
  · rw [hmux.nextToSut] at hnew
    have hdiffers : next ≠ value := hnew
    simp only [steer, hregs, hread, bind, Except.bind, if_pos hdiffers] at hsteer
    cases hset : VirtualRegister.setToSut (.ofRegister reg width) value s with
    | error fault =>
      rw [hset] at hsteer
      cases hsteer
    | ok s'' =>
      rw [hset] at hsteer
      obtain rfl := Except.ok.inj hsteer
      exact congrArg Register.pendingCount (SystemModel.setRegister_self s'' reg _)

omit hregs hpos hwidth hmux in
theorem PathSelector.select_eq_steer (hkind : p.kind ≠ .nHot)
    (hentry : p.entry p.selectTable (p.selectedPath path) = .ok value) :
    p.select path s = p.steer value s := by
  unfold selectedPath at hentry
  unfold select
  cases hp : p.kind with
  | nHot => exact absurd hp hkind
  | tableBased =>
    have hentry : p.entry p.selectTable path = .ok value := by simpa [hp] using hentry
    simp only [hentry, bind, Except.bind]
  | oneHot =>
    have hentry : p.entry p.selectTable (if !p.canSelectNone && path == 0 then 1 else path) =
        .ok value := by simpa [hp] using hentry
    simp only [hentry, bind, Except.bind]

omit hregs hpos hwidth hmux in
theorem PathSelector.deselect_eq_steer {sent : Bits} (hkind : p.kind ≠ .nHot)
    (hentry : p.entry p.deselectTable path = .ok value) (hfirst : p.orFirstPath value = .ok sent) :
    p.deselect path s = p.steer sent s := by
  unfold deselect
  cases hp : p.kind with
  | nHot => exact absurd hp hkind
  | tableBased => simp only [hentry, hfirst, bind, Except.bind]
  | oneHot => simp only [hentry, hfirst, bind, Except.bind]

theorem PathSelector.isSelectedAndActive_mux (hentry : p.entry p.selectTable path = .ok value)
    (hvalue : value.length = width) :
    p.isSelectedAndActive s path = .ok (p.accepted next value && p.accepted last value) := by
  have hlast := VirtualRegister.lastToSut_whole hmux hpos hwidth
  have hnext := VirtualRegister.nextToSut_whole hmux hpos hwidth
  have hselected := p.accepts_eq (hvalue.trans hmux.next_length.symm)
  have hactive := p.accepts_eq (hvalue.trans hmux.last_length.symm)
  simp only [isSelectedAndActive, hentry, hregs, hlast, hnext, hselected, hactive, bind,
    Except.bind]
  rfl

end Mux

/-! ### MIBs -/

/-- A default selector whose constructor builds its tables, with the register that drives it. `paths` is the number of paths in use. -/
structure Mib where
  kind : DefaultSelector
  properties : SelectorProperty
  selectorRegister : Nat
  width : Nat
  pathsCount : Nat
  paths : Nat
  pathsCount_pos : 0 < pathsCount
  paths_le : paths ≤ pathsCount
  builds : kind.Builds properties width pathsCount
  registerLength : kind.checkRegisterLength properties width pathsCount = .ok ()
  nHot : kind = .nHot → properties.canSelectNone = true ∧ properties.startAtZero = false

namespace Mib

variable (mib : Mib)

def selector : PathSelector :=
  mib.kind.selector mib.properties mib.selectorRegister mib.width mib.pathsCount

/-- The value that is sent when no path is needed: that of none, or that of the first path. -/
def closedValue : Bits :=
  mib.kind.code mib.properties mib.width (if mib.properties.canSelectNone then 0 else 1)

theorem width_pos : 0 < mib.width := mib.builds.width_pos mib.pathsCount_pos mib.registerLength

theorem width_lt : mib.width < uint32Size := by
  have hvectors := mib.builds.vectors
  omega

/-! #### One bit for each path -/

section Hot

variable {mib} (hkind : mib.kind = .nHot)
include hkind

theorem zeroEntries_hot : DefaultSelector.zeroEntries .nHot mib.properties = 1 := by
  rw [DefaultSelector.zeroEntries_hot (by decide), (mib.nHot hkind).2]
  rfl

theorem pathsCount_le_width : mib.pathsCount ≤ mib.width := by
  have hhot : mib.kind ≠ .binary := by
    rw [hkind]
    decide
  exact mib.builds.width_le hhot mib.registerLength

theorem hotOffset_lt {i : Nat} (hi : 0 < i) (hle : i ≤ mib.paths) :
    DefaultSelector.hotOffset mib.properties mib.width i < mib.width := by
  have hentries := zeroEntries_hot hkind
  have hpaths := mib.paths_le
  exact DefaultSelector.hotOffset_lt (pathsCount_le_width hkind) (by omega) (by omega)

theorem marked_other {i j : Nat} (hle : i ≤ mib.paths) (hle' : j ≤ mib.paths)
    (hne : j ≠ i) (bit : Bool) (v : Bits) :
    DefaultSelector.marked mib.properties mib.width j
        (DefaultSelector.withBit mib.properties mib.width i bit v) =
      DefaultSelector.marked mib.properties mib.width j v := by
  have hentries := zeroEntries_hot hkind
  have hpaths := mib.paths_le
  exact DefaultSelector.marked_withBit_other (pathsCount_le_width hkind) (by omega) (by omega) hne
    bit v

theorem marked_self {i : Nat} (hi : 0 < i) (hle : i ≤ mib.paths) (bit : Bool) {v : Bits}
    (hv : v.length = mib.width) :
    DefaultSelector.marked mib.properties mib.width i
        (DefaultSelector.withBit mib.properties mib.width i bit v) =
      (bit == !mib.properties.invertedBits) := by
  have hentries := zeroEntries_hot hkind
  have hpaths := mib.paths_le
  exact DefaultSelector.marked_withBit_self (pathsCount_le_width hkind) (by omega) (by omega) bit hv

theorem marked_closed {i : Nat} (hi : 0 < i) (hle : i ≤ mib.paths) :
    DefaultSelector.marked mib.properties mib.width i
      (List.replicate mib.width mib.properties.invertedBits) = false := by
  have hentries := zeroEntries_hot hkind
  have hpaths := mib.paths_le
  exact DefaultSelector.marked_replicate (pathsCount_le_width hkind) (by omega) (by omega)

omit hkind in
/-- Only the bits of the paths in use may be set. -/
def HotValue (mib : Mib) (v : Bits) : Prop :=
  v.length = mib.width ∧ ∀ k, k < mib.width →
    (∀ i, 0 < i → i ≤ mib.paths → DefaultSelector.hotOffset mib.properties mib.width i ≠ k) →
    v[k]? = some mib.properties.invertedBits

theorem HotValue.withBit {v : Bits} (hv : mib.HotValue v) {i : Nat} (hi : 0 < i)
    (hle : i ≤ mib.paths) (bit : Bool) :
    mib.HotValue (DefaultSelector.withBit mib.properties mib.width i bit v) := by
  have hentries := zeroEntries_hot hkind
  refine ⟨(DefaultSelector.withBit_length bit v).trans hv.1, fun k hk hfree => ?_⟩
  rw [DefaultSelector.withBit, if_neg (by omega), List.getElem?_set_ne (hfree i hi hle)]
  exact hv.2 k hk hfree

omit hkind in
/-- A value without the bit of any path is that of none. -/
theorem HotValue.eq_closed {v : Bits} (hv : mib.HotValue v)
    (hshut : ∀ i, 0 < i → i ≤ mib.paths →
      DefaultSelector.marked mib.properties mib.width i v = false) :
    v = List.replicate mib.width mib.properties.invertedBits := by
  refine List.ext_getElem (by rw [hv.1, List.length_replicate]) fun k hk hk' => ?_
  rw [List.getElem_replicate]
  by_cases hfree : ∀ i, 0 < i → i ≤ mib.paths →
      DefaultSelector.hotOffset mib.properties mib.width i ≠ k
  · have hbit := hv.2 k (hv.1 ▸ hk) hfree
    rw [List.getElem?_eq_getElem hk] at hbit
    exact Option.some.inj hbit
  · simp only [not_forall, not_not] at hfree
    obtain ⟨i, hi, hle, hoffset⟩ := hfree
    have hmark := hshut i hi hle
    rw [DefaultSelector.marked, hoffset, List.getElem?_eq_getElem hk] at hmark
    have hbit := (Bool.or_eq_false_iff.mp hmark).2
    refine Bool.ne_not.mp fun hset => ?_
    rw [hset, beq_self_eq_true] at hbit
    cases hbit

/-- The lever of an N-hot selector. -/
def hotLever : Multiplexer Bits mib.paths where
  opens v i := DefaultSelector.marked mib.properties mib.width i v
  choose v i := DefaultSelector.withBit mib.properties mib.width i (!mib.properties.invertedBits) v
  drop v i := DefaultSelector.withBit mib.properties mib.width i mib.properties.invertedBits v
  closed := List.replicate mib.width mib.properties.invertedBits
  Proper := mib.HotValue
  proper_closed := ⟨List.length_replicate, fun k hk _ => List.getElem?_replicate_of_lt hk⟩
  proper_choose hv hi hle := HotValue.withBit hkind hv hi hle _
  proper_drop hv hi hle := HotValue.withBit hkind hv hi hle _
  opens_choose hv hi hle := by
    rw [marked_self hkind hi hle _ hv.1]
    exact beq_self_eq_true _
  opens_of_choose hv hi hle hj hle' hopen hne := by
    rw [marked_other hkind hle hle' hne] at hopen
    refine ⟨hopen, ?_⟩
    rintro rfl
    rw [marked_closed hkind hj hle'] at hopen
    cases hopen
  opens_drop hv hi hle hj hle' hopen hopen' hne := by
    rwa [marked_other hkind hle hle' hne]
  opens_of_drop {v i j} hv hi hle hj hle' hopen hopen' := by
    by_cases hne : j = i
    · subst hne
      rw [marked_self hkind hi hle _ hv.1] at hopen'
      cases hinverted : mib.properties.invertedBits <;> simp [hinverted] at hopen'
    · rw [marked_other hkind hle hle' hne] at hopen'
      exact .inr ⟨hne, hopen'⟩
  drop_closed hi hle hopen := by
    rw [marked_closed hkind hi hle] at hopen
    cases hopen
  eq_closed hv hshut := HotValue.eq_closed hv hshut
  closed_unique hi hle _ _ hopen _ := by
    rw [marked_closed hkind hi hle] at hopen
    cases hopen

end Hot

def lever : Multiplexer Bits mib.paths :=
  if hkind : mib.kind = .nHot then hotLever hkind
  else
    exclusive (mib.kind.code mib.properties mib.width) mib.closedValue fun hi hle hj hle' =>
      mib.builds.code_injective mib.registerLength hi (hle.trans mib.paths_le) hj
        (hle'.trans mib.paths_le)

/-! #### The calls of its linker -/

variable {mib}

theorem lever_hot (hkind : mib.kind = .nHot) : mib.lever = hotLever hkind := dif_pos hkind

theorem lever_exclusive (hkind : mib.kind ≠ .nHot) :
    mib.lever = exclusive (mib.kind.code mib.properties mib.width) mib.closedValue
      fun hi hle hj hle' => mib.builds.code_injective mib.registerLength hi (hle.trans mib.paths_le)
        hj (hle'.trans mib.paths_le) := dif_neg hkind

theorem selectorKind_ne (hkind : mib.kind ≠ .nHot) : mib.selector.kind ≠ .nHot :=
  fun hhot => hkind (DefaultSelector.selectorKind_eq_nHot.mp hhot)

/-- A value opens the paths for which the selector accepts it. -/
theorem opens_eq {v : Bits} (hv : v.length = mib.width) {i : Nat} (hle : i ≤ mib.pathsCount) :
    mib.lever.opens v i =
      mib.selector.accepted v (mib.kind.code mib.properties mib.width i) := by
  by_cases hkind : mib.kind = .nHot
  · have hentries := zeroEntries_hot hkind
    rw [lever_hot hkind, selector, hkind]
    exact (DefaultSelector.accepted_marked (pathsCount_le_width hkind) (by omega) hv).symm
  · rw [lever_exclusive hkind, Bool.eq_iff_iff, PathSelector.accepted_iff (selectorKind_ne hkind)]
    exact decide_eq_true_iff

/-- No path behind those in use is opened, unless the closed value does. -/
theorem eq_closed_of_opens {v : Bits} (hv : mib.lever.Proper v) {i : Nat} (hin : mib.paths < i)
    (hle : i ≤ mib.pathsCount) (hopen : mib.lever.opens v i = true) : v = mib.lever.closed := by
  by_cases hkind : mib.kind = .nHot
  · have hentries := zeroEntries_hot hkind
    have hpaths := mib.paths_le
    have hwidth := pathsCount_le_width hkind
    rw [lever_hot hkind] at hv hopen
    have hoffset : DefaultSelector.hotOffset mib.properties mib.width i < mib.width :=
      DefaultSelector.hotOffset_lt hwidth (by omega) (by omega)
    have hfree : ∀ j, 0 < j → j ≤ mib.paths →
        DefaultSelector.hotOffset mib.properties mib.width j ≠
          DefaultSelector.hotOffset mib.properties mib.width i := fun j hj hle' =>
      DefaultSelector.hotOffset_ne hwidth (by omega) (by omega) (by omega) (by omega) (by omega)
    have hmark : DefaultSelector.marked mib.properties mib.width i v = true := hopen
    rw [DefaultSelector.marked, decide_eq_false (by omega), Bool.false_or, hv.2 _ hoffset hfree]
      at hmark
    cases hinverted : mib.properties.invertedBits <;> simp [hinverted] at hmark
  · rw [lever_exclusive hkind] at hv hopen ⊢
    have hcode : v = mib.kind.code mib.properties mib.width i := of_decide_eq_true hopen
    rcases hv with hclosed | ⟨j, hj, hle', hcode'⟩
    · exact hclosed
    · have hsame := mib.builds.code_injective mib.registerLength (by omega) hle hj
        (hle'.trans mib.paths_le) (hcode.symm.trans hcode')
      omega

theorem closedValue_length : mib.closedValue.length = mib.width :=
  DefaultSelector.code_length _ _

theorem choose_length {v : Bits} (hv : v.length = mib.width) (i : Nat) :
    (mib.lever.choose v i).length = mib.width := by
  by_cases hkind : mib.kind = .nHot
  · rw [lever_hot hkind]
    exact (DefaultSelector.withBit_length _ v).trans hv
  · rw [lever_exclusive hkind]
    exact DefaultSelector.code_length _ _

theorem drop_length {v : Bits} (hv : v.length = mib.width) (i : Nat) :
    (mib.lever.drop v i).length = mib.width := by
  by_cases hkind : mib.kind = .nHot
  · rw [lever_hot hkind]
    exact (DefaultSelector.withBit_length _ v).trans hv
  · rw [lever_exclusive hkind]
    exact closedValue_length

theorem lever_closed : mib.lever.closed = mib.closedValue := by
  by_cases hkind : mib.kind = .nHot
  · rw [lever_hot hkind, closedValue, (mib.nHot hkind).1, if_pos rfl, DefaultSelector.code_zero]
    rfl
  · rw [lever_exclusive hkind]
    rfl

section Calls

variable {s : SystemModel} {next last : Bits} {i : Nat}
  (hmux : s.Mux mib.selectorRegister mib.width next last) (hle : i ≤ mib.pathsCount)
include hmux hle

omit hmux in
theorem selector_entry :
    mib.selector.entry mib.selector.selectTable i =
      .ok (mib.kind.code mib.properties mib.width i) :=
  DefaultSelector.selector_entry hle

theorem selector_isActive : mib.selector.isActive s i = .ok (mib.lever.opens last i) := by
  rw [opens_eq hmux.last_length hle]
  exact PathSelector.isActive_mux rfl mib.width_pos mib.width_lt hmux (selector_entry hle)
    (DefaultSelector.code_length _ _)

theorem selector_isSelected : mib.selector.isSelected s i = .ok (mib.lever.opens next i) := by
  rw [opens_eq hmux.next_length hle]
  exact PathSelector.isSelected_mux rfl mib.width_pos mib.width_lt hmux (selector_entry hle)
    (DefaultSelector.code_length _ _)

theorem selector_isSelectedAndActive :
    mib.selector.isSelectedAndActive s i =
      .ok (mib.lever.opens next i && mib.lever.opens last i) := by
  rw [opens_eq hmux.next_length hle, opens_eq hmux.last_length hle]
  exact PathSelector.isSelectedAndActive_mux rfl mib.width_pos mib.width_lt hmux
    (selector_entry hle) (DefaultSelector.code_length _ _)

theorem selector_select (hi : 0 < i) :
    mib.selector.select i s = mib.selector.steer (mib.lever.choose next i) s := by
  have hentry := selector_entry hle
  by_cases hkind : mib.kind = .nHot
  · have hhot : mib.selector.kind = .nHot := DefaultSelector.selectorKind_eq_nHot.mpr hkind
    have hread : mib.selector.muxRegisters.nextToSut s = .ok next :=
      VirtualRegister.nextToSut_whole hmux mib.width_pos mib.width_lt
    rw [hkind] at hentry
    have hmask : mib.selector.selectMasked next
        (DefaultSelector.code .nHot mib.properties mib.width i) =
        .ok (List.zipWith (PathSelector.selectOp mib.selector.invertedBits) next
          (DefaultSelector.code .nHot mib.properties mib.width i)) :=
      mib.selector.selectMasked_eq
        ((DefaultSelector.code_length _ _).trans hmux.next_length.symm)
    have hbit : List.zipWith (PathSelector.selectOp mib.selector.invertedBits) next
        (DefaultSelector.code .nHot mib.properties mib.width i) = mib.lever.choose next i := by
      rw [lever_hot hkind]
      exact DefaultSelector.select_withBit hmux.next_length
    unfold PathSelector.select
    simp only [hhot, hentry, hread, hmask, hbit, bind, Except.bind]
    rw [if_neg (by omega)]
  · have hselected : mib.selector.selectedPath i = i := by
      rw [PathSelector.selectedPath, if_neg]
      intro hzero
      omega
    rw [lever_exclusive hkind]
    exact PathSelector.select_eq_steer (selectorKind_ne hkind) (hselected.symm ▸ hentry)

theorem selector_deselect :
    mib.selector.deselect i s = mib.selector.steer (mib.lever.drop next i) s := by
  have hentry : mib.selector.entry mib.selector.deselectTable i =
      .ok (mib.kind.deselectCode mib.properties mib.width i) :=
    DefaultSelector.selector_entry_deselect hle
  by_cases hkind : mib.kind = .nHot
  · have hhot : mib.selector.kind = .nHot := DefaultSelector.selectorKind_eq_nHot.mpr hkind
    have hnone : mib.selector.canSelectNone = true := (mib.nHot hkind).1
    rw [hkind] at hentry
    have hfirst : mib.selector.orFirstPath
        (List.zipWith (PathSelector.keepOp mib.selector.invertedBits) next
          (DefaultSelector.deselectCode .nHot mib.properties mib.width i)) =
        .ok (mib.lever.drop next i) := by
      rw [PathSelector.orFirstPath, if_pos hnone, lever_hot hkind]
      exact congrArg Except.ok (DefaultSelector.deselect_withBit hmux.next_length)
    rw [PathSelector.deselect_nHot_eq rfl mib.width_pos mib.width_lt hmux hhot hentry
      DefaultSelector.deselectCode_length hfirst, if_neg]
    rintro ⟨hcannot, -⟩
    rw [hnone] at hcannot
    cases hcannot
  · rw [lever_exclusive hkind]
    refine PathSelector.deselect_eq_steer (selectorKind_ne hkind) hentry ?_
    have hvalue : mib.kind.deselectCode mib.properties mib.width i =
        mib.kind.code mib.properties mib.width 0 := by
      rw [DefaultSelector.code_zero]
      cases hp : mib.kind with
      | nHot => exact absurd hp hkind
      | binary => rfl
      | oneHot => rfl
    rw [hvalue]
    change _ = Except.ok mib.closedValue
    cases hnone : mib.properties.canSelectNone with
    | true =>
      rw [PathSelector.orFirstPath, if_pos (show mib.selector.canSelectNone = true from hnone),
        closedValue, hnone]
      rfl
    | false =>
      have hor : mib.selector.orFirstPath (mib.kind.code mib.properties mib.width 0) =
          .ok (if mib.kind.code mib.properties mib.width 0 =
              mib.kind.code mib.properties mib.width 0 then
            mib.kind.code mib.properties mib.width 1
            else mib.kind.code mib.properties mib.width 0) :=
        DefaultSelector.orFirstPath_selector hnone mib.pathsCount_pos _
      rw [if_pos rfl] at hor
      rw [closedValue, hnone]
      exact hor

omit hle in
theorem selector_selectNone : mib.selector.select 0 s = mib.selector.steer mib.lever.closed s := by
  have hentry : mib.selector.entry mib.selector.selectTable 0 =
      .ok (mib.kind.code mib.properties mib.width 0) :=
    DefaultSelector.selector_entry (Nat.zero_le _)
  rw [lever_closed]
  by_cases hkind : mib.kind = .nHot
  · have hhot : mib.selector.kind = .nHot := DefaultSelector.selectorKind_eq_nHot.mpr hkind
    have hread : mib.selector.muxRegisters.nextToSut s = .ok next :=
      VirtualRegister.nextToSut_whole hmux mib.width_pos mib.width_lt
    rw [closedValue, (mib.nHot hkind).1]
    unfold PathSelector.select
    simp only [hhot, hentry, hread, bind, Except.bind, if_true]
  · refine PathSelector.select_eq_steer (selectorKind_ne hkind) ?_
    cases hnone : mib.properties.canSelectNone with
    | true =>
      have hselected : mib.selector.selectedPath 0 = 0 := by
        rw [PathSelector.selectedPath, if_neg]
        rintro ⟨-, hcannot, -⟩
        rw [show mib.selector.canSelectNone = true from hnone] at hcannot
        cases hcannot
      rw [hselected, closedValue, hnone]
      exact hentry
    | false =>
      rw [closedValue, hnone]
      cases hp : mib.kind with
      | nHot => exact absurd hp hkind
      | binary =>
        have hbinary : mib.selector.kind ≠ .oneHot := by
          rw [show mib.selector.kind = mib.kind.selectorKind from rfl, hp]
          decide
        have hfirst : DefaultSelector.zeroIsFirst .binary mib.properties = true := by
          rw [DefaultSelector.zeroIsFirst, hnone]
          rfl
        rw [PathSelector.selectedPath, if_neg fun hone => hbinary hone.1, hentry, hp]
        exact congrArg Except.ok (DefaultSelector.code_one hfirst).symm
      | oneHot =>
        have hone : mib.selector.kind = .oneHot := by
          rw [show mib.selector.kind = mib.kind.selectorKind from rfl, hp]
          rfl
        rw [PathSelector.selectedPath, if_pos ⟨hone, hnone, rfl⟩, ← hp]
        exact DefaultSelector.selector_entry mib.pathsCount_pos

end Calls

end Mib

end Mast
