import Mast.Readers.Numbers
import Mast.Scan.AlwaysSelected
import Mast.Scan.View

/-!
# Selectors made from ICL multiplexers

A `ScanMux` gives each selection a code. `AST_SystemModelGenerator` tabulates the codes for selecting the paths, and their complements for deselecting them.
-/

namespace Mast

open Outcome

/-- What the selector of an `AST_ScanMux` needs of an `AST_ScanMuxSelection`. -/
structure ScanMuxSelection where
  selectionsValues : List AST.ResolvedNumber

namespace SystemModelGenerator

/-- The loop of `MakeSelectionTable` over the selections. -/
def selectionEntries (expectedBitsCount : Nat) :
    List ScanMuxSelection → Except Fault (List Bits)
  | [] => .ok []
  | selection :: rest =>
    match selection.selectionsValues with
    | [] => .error (.runtimeError "Must have at least one value")
    | [value] => do
      let valueAsBinaryVector ← value.asBinaryVector expectedBitsCount
      let entries ← selectionEntries expectedBitsCount rest
      return valueAsBinaryVector.bits :: entries
    | _ =>
      .error (.runtimeError "Not Yet Supported: Concat number list (for ScanMux Selection)")

/-- `MakeSelectionTable`: the tables for selection and for deselection. -/
def makeSelectionTable (selections : List ScanMuxSelection) (expectedBitsCount : Nat)
    (firstSelectionIsEmpty : Bool) : Except Fault (List Bits × List Bits) := do
  let unused ← Bits.filled expectedBitsCount 0x00
  let codes ← selectionEntries expectedBitsCount
    (if firstSelectionIsEmpty then selections.drop 1 else selections)
  return (unused :: codes, unused :: codes.map Bits.toggled)

/-- `SelectorProperty::Std`. -/
def std : SelectorProperty := ⟨false, false, false, false⟩

/-- `Create_PathSelector` for a selector that is one register without a range, which the `SystemModel` has created. -/
def createPathSelector (reg bitsCount : Nat) (selectTable deselectTable : List Bits)
    (selectorProperties : SelectorProperty) : Except Fault PathSelector := do
  let virtualRegister ←
    VirtualRegister.appendSlice [] ⟨reg, ⟨bitsCount - 1, 0⟩⟩ bitsCount .downto .undefined
  DefaultTableBasedPathSelector.create .tableBased virtualRegister (selectTable.length - 1)
    selectTable deselectTable selectorProperties

variable {selections : List ScanMuxSelection} {reg width : Nat} {firstSelectionIsEmpty : Bool}
  {unused : Bits} {codes deselectTable : List Bits} {properties : SelectorProperty}
  {p : PathSelector}

theorem makeSelectionTable_ok (hwidth : width < uint32Size)
    (hmake : makeSelectionTable selections width firstSelectionIsEmpty =
      .ok (unused :: codes, deselectTable)) :
    width + 7 < uint32Size ∧ unused = Bits.zeros width ∧
      deselectTable = Bits.zeros width :: codes.map Bits.toggled := by
  obtain ⟨noPath, hfilled, hmake⟩ := bind_eq_ok.mp hmake
  obtain ⟨entries, -, hmake⟩ := bind_eq_ok.mp hmake
  have hvectors := Bits.filled_within hwidth hfilled
  rw [Bits.filled_zeros hvectors] at hfilled
  obtain rfl := Except.ok.inj hfilled
  cases hmake
  exact ⟨hvectors, rfl, rfl⟩

theorem createPathSelector_ok
    (hcreate : createPathSelector reg width (unused :: codes) deselectTable properties = .ok p) :
    0 < width ∧ p = ⟨.tableBased, properties.canSelectNone, properties.invertedBits, codes.length,
      unused :: codes, deselectTable, .ofRegister reg width⟩ := by
  obtain ⟨virtualRegister, happend, hcreate⟩ := bind_eq_ok.mp hcreate
  obtain ⟨hpos, -, -, -, rfl⟩ := VirtualRegister.appendSlice_ok happend
  refine ⟨Nat.pos_of_ne_zero hpos, ?_⟩
  unfold DefaultTableBasedPathSelector.create at hcreate
  split at hcreate
  · cases hcreate
  · split at hcreate
    · cases hcreate
    · exact (Except.ok.inj hcreate).symm

/-! ### What the calls select -/

def codeSelector (reg width : Nat) (codes : List Bits) : PathSelector :=
  ⟨.tableBased, false, false, codes.length, Bits.zeros width :: codes,
    Bits.zeros width :: codes.map Bits.toggled, .ofRegister reg width⟩

section Calls

variable {s : SystemModel} {next last code : Bits} {path index : Nat}

theorem codeSelector_entry (hcode : codes[index]? = some code) :
    (codeSelector reg width codes).entry (codeSelector reg width codes).selectTable (index + 1) =
      .ok code :=
  PathSelector.entry_eq (Nat.succ_lt_succ (List.getElem?_eq_some_iff.mp hcode).1) hcode

theorem codeSelector_entry_deselect (hcode : codes[index]? = some code) :
    (codeSelector reg width codes).entry (codeSelector reg width codes).deselectTable (index + 1) =
      .ok code.toggled := by
  refine PathSelector.entry_eq (Nat.succ_lt_succ (List.getElem?_eq_some_iff.mp hcode).1) ?_
  change (codes.map Bits.toggled)[index]? = _
  rw [List.getElem?_map, hcode]
  rfl

theorem exists_code (hpath : 0 < path) (hle : path ≤ codes.length) :
    ∃ index code, path = index + 1 ∧ codes[index]? = some code :=
  ⟨path - 1, _, by omega, List.getElem?_eq_getElem (show path - 1 < codes.length by omega)⟩

variable (hpos : 0 < width) (hwidth : width < uint32Size) (hmux : s.Mux reg width next last)
  (hwidths : ∀ code ∈ codes, code.length = width)
include hpos hwidth hmux hwidths

theorem isSelected_code (hcode : codes[index]? = some code) :
    (codeSelector reg width codes).isSelected s (index + 1) = .ok (next == code) :=
  PathSelector.isSelected_mux rfl hpos hwidth hmux (codeSelector_entry hcode)
    (hwidths code (List.mem_of_getElem? hcode))

theorem isActive_code (hcode : codes[index]? = some code) :
    (codeSelector reg width codes).isActive s (index + 1) = .ok (last == code) :=
  PathSelector.isActive_mux rfl hpos hwidth hmux (codeSelector_entry hcode)
    (hwidths code (List.mem_of_getElem? hcode))

theorem select_code (hcode : codes[index]? = some code) :
    ∃ s', (codeSelector reg width codes).select (index + 1) s = .ok s' ∧
      s'.Mux reg width code last :=
  PathSelector.select_mux rfl hpos hwidth hmux SelectorKind.noConfusion (codeSelector_entry hcode)
    (hwidths code (List.mem_of_getElem? hcode))

/-- Deselecting a path sends the complement of its code, but zero is replaced by the first code. -/
theorem deselect_code {first : Bits} {rest : List Bits} (hcodes : codes = first :: rest)
    (hcode : codes[index]? = some code) :
    ∃ s', (codeSelector reg width codes).deselect (index + 1) s = .ok s' ∧
      s'.Mux reg width (if code.toggled = Bits.zeros width then first else code.toggled) last := by
  have hlength := hwidths code (List.mem_of_getElem? hcode)
  have hsent : (if code.toggled = Bits.zeros width then first else code.toggled).length = width := by
    split
    · exact hwidths first (hcodes ▸ List.mem_cons_self)
    · rwa [Bits.toggled_length]
  subst hcodes
  exact PathSelector.deselect_mux rfl hpos hwidth hmux SelectorKind.noConfusion
    (codeSelector_entry_deselect hcode) rfl hsent

end Calls

/-! ### Never nowhere -/

def ExactlyOne (pathsCount : Nat) (test : Nat → Except Fault Bool) : Prop :=
  ∃ path, 0 < path ∧ path ≤ pathsCount ∧ test path = .ok true ∧
    ∀ other, 0 < other → other ≤ pathsCount → other ≠ path → test other = .ok false

/-- The calls for the paths of a multiplexer. -/
def NamesPath (pathsCount : Nat) : SelectorCall → Prop
  | .select path => 0 < path ∧ path ≤ pathsCount
  | .deselect path => 0 < path ∧ path ≤ pathsCount
  | .updateLastToSut => True

/-- From any state in which a path is selected, exactly one is after any calls, and exactly one is active once the register has been sent. -/
def NeverNowhere (p : PathSelector) (reg width pathsCount : Nat) : Prop :=
  ∀ (s : SystemModel) (calls : List SelectorCall), (s.registers reg).HasWidth width →
    (s.registers reg).bitsOrdering = .downto →
    (∃ path, 0 < path ∧ path ≤ pathsCount ∧ p.isSelected s path = .ok true) →
    (∀ call ∈ calls, NamesPath pathsCount call) →
      ExactlyOne pathsCount (p.isSelected (p.afterCalls reg s calls)) ∧
      ExactlyOne pathsCount
        (p.isActive (p.afterCalls reg s (calls ++ [SelectorCall.updateLastToSut])))

def Complemented (width : Nat) (codes : List Bits) : Prop :=
  ∀ code ∈ codes, code = List.replicate width true ∨ code.toggled ∈ codes

theorem toggled_eq_zeros_iff {code : Bits} :
    code.toggled = Bits.zeros width ↔ code = List.replicate width true := by
  have hones : Bits.toggled (List.replicate width true) = Bits.zeros width := List.map_replicate
  rw [← hones]
  exact ⟨Bits.toggled_injective, congrArg _⟩

/-- A test of the codes for a value of one of them. -/
theorem exactlyOne_of_mem (hdistinct : codes.Nodup) {value : Bits} (hvalue : value ∈ codes)
    {test : Nat → Except Fault Bool}
    (htest : ∀ index code, codes[index]? = some code → test (index + 1) = .ok (value == code)) :
    ExactlyOne codes.length test := by
  obtain ⟨index, hindex⟩ := List.mem_iff_getElem?.mp hvalue
  have hlt := (List.getElem?_eq_some_iff.mp hindex).1
  refine ⟨index + 1, Nat.succ_pos _, hlt, ?_, fun other hother hle hne => ?_⟩
  · rw [htest index value hindex, beq_self_eq_true]
  · obtain ⟨index', code, rfl, hcode⟩ := exists_code hother hle
    rw [htest index' code hcode]
    refine congrArg Except.ok (beq_eq_false_iff_ne.mpr fun hsame => hne ?_)
    subst hsame
    rw [(List.getElem?_inj hlt hdistinct).mp (hindex.trans hcode.symm)]

section Runs

variable {s : SystemModel} {next last : Bits} (hpos : 0 < width) (hwidth : width < uint32Size)
  (hwidths : ∀ code ∈ codes, code.length = width)

def SendsCode (codes : List Bits) (reg width : Nat) (s : SystemModel) : Prop :=
  ∃ next last, s.Mux reg width next last ∧ next ∈ codes

include hpos hwidth hwidths

theorem SendsCode.after (hcomplemented : Complemented width codes)
    (hsends : SendsCode codes reg width s) {call : SelectorCall}
    (hcall : NamesPath codes.length call) :
    SendsCode codes reg width (call.after (codeSelector reg width codes) reg s) := by
  obtain ⟨next, last, hmux, hnext⟩ := hsends
  cases call with
  | select path =>
    obtain ⟨index, code, rfl, hcode⟩ := exists_code hcall.1 hcall.2
    obtain ⟨s', hselect, hmux'⟩ := select_code hpos hwidth hmux hwidths hcode
    rw [SelectorCall.after, hselect]
    exact ⟨_, _, hmux', List.mem_of_getElem? hcode⟩
  | deselect path =>
    obtain ⟨index, code, rfl, hcode⟩ := exists_code hcall.1 hcall.2
    have hmem := List.mem_of_getElem? hcode
    obtain ⟨first, rest, hcodes⟩ := List.exists_cons_of_ne_nil (List.ne_nil_of_mem hmem)
    obtain ⟨s', hdeselect, hmux'⟩ := deselect_code hpos hwidth hmux hwidths hcodes hcode
    rw [SelectorCall.after, hdeselect]
    refine ⟨_, _, hmux', ?_⟩
    split
    · rw [hcodes]
      exact List.mem_cons_self
    · rename_i hzero
      exact (hcomplemented code hmem).resolve_left fun hones =>
        hzero (toggled_eq_zeros_iff.mpr hones)
  | updateLastToSut => exact ⟨next, next, hmux.updateLastToSut, hnext⟩

theorem SendsCode.afterCalls (hcomplemented : Complemented width codes)
    (hsends : SendsCode codes reg width s) {calls : List SelectorCall}
    (hcalls : ∀ call ∈ calls, NamesPath codes.length call) :
    SendsCode codes reg width ((codeSelector reg width codes).afterCalls reg s calls) :=
  List.foldlRecOn calls _ hsends fun _ hs call hcall =>
    hs.after hpos hwidth hwidths hcomplemented (hcalls call hcall)

theorem exists_isSelected_code (hmux : s.Mux reg width next last) :
    (∃ path, 0 < path ∧ path ≤ codes.length ∧
      (codeSelector reg width codes).isSelected s path = .ok true) ↔ next ∈ codes := by
  constructor
  · rintro ⟨path, hpath, hle, hselected⟩
    obtain ⟨index, code, rfl, hcode⟩ := exists_code hpath hle
    rw [isSelected_code hpos hwidth hmux hwidths hcode] at hselected
    have hsame := beq_iff_eq.mp (Except.ok.inj hselected)
    exact hsame ▸ List.mem_of_getElem? hcode
  · intro hnext
    obtain ⟨index, hindex⟩ := List.mem_iff_getElem?.mp hnext
    refine ⟨index + 1, Nat.succ_pos _, (List.getElem?_eq_some_iff.mp hindex).1, ?_⟩
    rw [isSelected_code hpos hwidth hmux hwidths hindex, beq_self_eq_true]

theorem neverNowhere_iff (hdistinct : codes.Nodup) :
    NeverNowhere (codeSelector reg width codes) reg width codes.length ↔
      Complemented width codes := by
  constructor
  · intro hnever code hmem
    by_contra hneither
    obtain ⟨hones, hcomplement⟩ := not_or.mp hneither
    obtain ⟨index, hindex⟩ := List.mem_iff_getElem?.mp hmem
    obtain ⟨first, rest, hcodes⟩ := List.exists_cons_of_ne_nil (List.ne_nil_of_mem hmem)
    have hmux : (DefaultSelector.createdModel code .downto).Mux reg width code code :=
      DefaultSelector.createdModel_mux reg (hwidths code hmem) nofun
    obtain ⟨s', hdeselect, hmux'⟩ := deselect_code hpos hwidth hmux hwidths hcodes hindex
    rw [if_neg fun hzero => hones (toggled_eq_zeros_iff.mp hzero)] at hmux'
    obtain ⟨⟨path, hpath, hle, hselected, -⟩, -⟩ := hnever _ [.deselect (index + 1)] hmux.hasWidth
      rfl ((exists_isSelected_code hpos hwidth hwidths hmux).mpr hmem) fun call hcall => by
        rw [List.mem_singleton.mp hcall]
        exact ⟨Nat.succ_pos _, (List.getElem?_eq_some_iff.mp hindex).1⟩
    have hafter : (codeSelector reg width codes).afterCalls reg
        (DefaultSelector.createdModel code .downto) [.deselect (index + 1)] = s' := by
      rw [PathSelector.afterCalls, List.foldl_cons, List.foldl_nil, SelectorCall.after, hdeselect]
      rfl
    rw [hafter] at hselected
    exact hcomplement
      ((exists_isSelected_code hpos hwidth hwidths hmux').mp ⟨path, hpath, hle, hselected⟩)
  · intro hcomplemented s calls hhas hordering hselected hcalls
    have hmux : s.Mux reg width (s.registers reg).nextToSut (s.registers reg).lastToSut :=
      ⟨hhas, fun hupto => absurd (hordering.symm.trans hupto) (by decide), rfl, rfl⟩
    have hsends : SendsCode codes reg width s :=
      ⟨_, _, hmux, (exists_isSelected_code hpos hwidth hwidths hmux).mp hselected⟩
    obtain ⟨next, last, hmux', hnext⟩ := hsends.afterCalls hpos hwidth hwidths hcomplemented hcalls
    refine ⟨exactlyOne_of_mem hdistinct hnext fun index code hcode =>
      isSelected_code hpos hwidth hmux' hwidths hcode, ?_⟩
    rw [PathSelector.afterCalls, List.foldl_append]
    exact exactlyOne_of_mem hdistinct hnext fun index code hcode =>
      isActive_code hpos hwidth hmux'.updateLastToSut hwidths hcode

end Runs

/-- The multiplexer never points nowhere exactly when each code is all ones or has its complement among the codes. -/
theorem neverNowhere_iff_complemented (hwidth : width < uint32Size)
    (hmake : makeSelectionTable selections width false = .ok (unused :: codes, deselectTable))
    (hcreate : createPathSelector reg width (unused :: codes) deselectTable std = .ok p)
    (hdistinct : codes.Nodup) (hwidths : ∀ code ∈ codes, code.length = width) :
    NeverNowhere p reg width codes.length ↔ Complemented width codes := by
  obtain ⟨-, rfl, rfl⟩ := makeSelectionTable_ok hwidth hmake
  obtain ⟨hpos, rfl⟩ := createPathSelector_ok hcreate
  exact neverNowhere_iff hpos hwidth hwidths hdistinct

def selectionsOf (codes : List (Bool × Bool)) : List ScanMuxSelection :=
  codes.map fun code => ⟨[.sizedBinary code.1 [code.2]]⟩

theorem neverNowhere_two_bits :
    ∃ p, createPathSelector 1 2 [[false, false], [false, true], [true, false]]
          [[false, false], [true, false], [false, true]] std = .ok p ∧
      (NeverNowhere p 1 2 2 ↔ Complemented 2 [[false, true], [true, false]]) :=
  ⟨_, rfl, @neverNowhere_iff_complemented (selectionsOf [(false, true), (true, false)]) 1 2
    [false, false] [[false, true], [true, false]] [[false, false], [true, false], [false, true]] _
    (by decide) (by decide +kernel) rfl (by decide) (by decide)⟩

/-- With the codes `00`, `01` and `10`, deselecting the first path sends `11`. -/
theorem points_nowhere :
    ∃ p selectTable deselectTable,
      makeSelectionTable (selectionsOf [(false, false), (false, true), (true, false)]) 2 false =
        .ok (selectTable, deselectTable) ∧
      createPathSelector 1 2 selectTable deselectTable std = .ok p ∧
      ¬NeverNowhere p 1 2 3 := by
  have hmake : makeSelectionTable
      (selectionsOf [(false, false), (false, true), (true, false)]) 2 false =
        .ok ([[false, false], [false, false], [false, true], [true, false]],
          [[false, false], [true, true], [true, false], [false, true]]) := by
    decide +kernel
  refine ⟨_, _, _, hmake, rfl, fun hnever => ?_⟩
  obtain ⟨⟨path, hpath, hle, hselected, -⟩, -⟩ :=
    hnever (DefaultSelector.createdModel [false, false] .downto) [.deselect 1] ⟨rfl, rfl, rfl⟩ rfl
      ⟨1, by decide, by decide, rfl⟩ fun call hcall => by
        rw [List.mem_singleton.mp hcall]
        exact ⟨by decide, by decide⟩
  interval_cases path <;> cases hselected

end SystemModelGenerator

end Mast
