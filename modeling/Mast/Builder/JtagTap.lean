import Mast.Scan.AlwaysSelected

/-!
# The TAPs of the model builder

`Create_JTAG_TAP` makes an instruction register and a Linker that it drives. Without an explicit coding the instructions are numbered in binary, except that of the bypass register, which is all ones. The numbers reach that instruction when there are as many paths as values.
-/

namespace Mast

open BinaryVector (numberBits)
open DefaultTableBasedPathSelector (createFor)
open Outcome

namespace SystemModelBuilder

/-! ### The builder -/

/-- The nodes that `Create_JTAG_TAP` creates: an access interface with the instruction register and the Linker, which has the bypass register. -/
structure JtagTap where
  name : String
  ir : Register
  muxName : String
  pathSelector : PathSelector
  keepOpen : Bool
  bypassRegister : Register

/-- `SelectorProperty::Binary_Default`, which is also `SelectorProperty::None`. -/
def binaryDefault : SelectorProperty := ⟨false, false, false, false⟩

/-- The table of instructions, with that of the bypass register for no path too. -/
def irCodes (irBitsCount muxPathsCount : Nat) : List Bits → Except Fault (List Bits × Bits)
  | [] => do
    let selectTable ←
      DefaultBinaryPathSelector.createSelectTable irBitsCount muxPathsCount binaryDefault
    let irBypassSequence ← Bits.filled irBitsCount 0xFF
    return ((selectTable.set 0 irBypassSequence).set 1 irBypassSequence, irBypassSequence)
  | irBypassSequence :: codes =>
    .ok (irBypassSequence :: irBypassSequence :: codes, irBypassSequence)

/-- `Create_JTAG_TAP`; `reg` identifies the instruction register. -/
def createJtagTap (name : String) (irBitsCount muxPathsCount : Nat) (irCoding : List Bits)
    (reg : Nat) : Except Fault JtagTap :=
  if irBitsCount = 0 then .error (.invalidArgument "irBitsCount must be != 0")
  else if ¬muxPathsCount > 1 then .error (.invalidArgument "muxPathsCount must be > 1")
  else do
    let noName := name.isEmpty
    let (selectTable, irBypassSequence) ← irCodes irBitsCount muxPathsCount irCoding
    let deselectTable := List.replicate ((muxPathsCount + 1) % uint32Size) irBypassSequence
    let pathSelector ← createFor .tableBased reg irBypassSequence.length muxPathsCount selectTable
      deselectTable binaryDefault
    let bypassBypassSequence ← Bits.filled 1 0xFF
    return {
      name := if noName then "1149_1_TAP" else name
      ir := Register.create (if noName then "TAP_IR" else name ++ "_IR") irBypassSequence true .downto
      muxName := if noName then "TAP_DR_Mux" else name ++ "_DR_Mux"
      pathSelector := pathSelector
      keepOpen := true
      bypassRegister := Register.create (if noName then "TAP_BPY" else name ++ "_BPY")
        bypassBypassSequence false .downto }

/-! ### What should hold of a TAP -/

def NamesDrPath (muxPathsCount : Nat) : SelectorCall → Prop
  | .select path => 0 < path ∧ path ≤ muxPathsCount
  | .deselect path => 0 < path ∧ path ≤ muxPathsCount
  | .updateLastToSut => True

/-- The path to find selected after a call: that of the bypass register after a deselection. -/
def pathAfter (path : Nat) : SelectorCall → Nat
  | .select path => path
  | .deselect _ => 1
  | .updateLastToSut => path

/-- Of all the paths, only the given one satisfies a test. -/
structure OnlyPath (muxPathsCount path : Nat) (test : Nat → Except Fault Bool) : Prop where
  here : test path = .ok true
  elsewhere (other : Nat) : 0 < other → other ≤ muxPathsCount → other ≠ path →
    test other = .ok false

/-- Each path has its own instruction, the instruction register starts with that of the bypass register, and after any calls the path that was asked for is the only one selected, and active once the register has been sent. -/
structure JtagTap.Unambiguous (tap : JtagTap) (reg muxPathsCount : Nat) : Prop where
  distinct (path path' : Nat) : 0 < path → path ≤ muxPathsCount → 0 < path' →
    path' ≤ muxPathsCount →
      tap.pathSelector.selectTable[path]? = tap.pathSelector.selectTable[path']? → path = path'
  initial : tap.pathSelector.selectTable[1]? = some tap.ir.nextToSut ∧
    tap.ir.lastToSut = tap.ir.nextToSut ∧ ∀ bit ∈ tap.ir.nextToSut, bit = true
  runs (s : SystemModel) (calls : List SelectorCall) : s.registers reg = tap.ir →
    (∀ call ∈ calls, NamesDrPath muxPathsCount call) →
      OnlyPath muxPathsCount (calls.foldl pathAfter 1)
        (tap.pathSelector.isSelected (tap.pathSelector.afterCalls reg s calls)) ∧
      OnlyPath muxPathsCount (calls.foldl pathAfter 1)
        (tap.pathSelector.isActive
          (tap.pathSelector.afterCalls reg s (calls ++ [SelectorCall.updateLastToSut])))

/-! ### The instructions -/

/-- The instruction of a path: `Append` takes its width in 8 bits. -/
def irCode (width path : Nat) : Bits :=
  if path ≤ 1 then List.replicate width true else numberBits (width % 256) (path - 1)

/-- The selector of a TAP whose instructions are not given. -/
def irSelector (reg width muxPathsCount : Nat) : PathSelector where
  kind := .tableBased
  canSelectNone := false
  invertedBits := false
  pathsCount := muxPathsCount
  selectTable := (List.range (muxPathsCount + 1)).map (irCode width)
  deselectTable := List.replicate (muxPathsCount + 1) (irCode width 1)
  muxRegisters := .ofRegister reg width

variable {name : String} {reg width muxPathsCount path : Nat} {tap : JtagTap}

/-- The numbers of the paths, as the binary selector tabulates them. -/
theorem createSelectTable_ok (hpaths : 0 < muxPathsCount) (hwidth : width < uint32Size)
    {table : List Bits}
    (htable : DefaultBinaryPathSelector.createSelectTable width muxPathsCount binaryDefault =
      .ok table) :
    (0 < width % 256 ∧ width % 256 ≤ 32) ∧ muxPathsCount ≤ 2 ^ width ∧
      width + 7 < uint32Size ∧ muxPathsCount + 1 < uint32Size ∧
      table = Bits.zeros width ::
        (List.range' 1 muxPathsCount).map fun path => numberBits (width % 256) (path - 1) := by
  obtain ⟨hvectors, hloop⟩ := DefaultSelector.createSelectTable_binary_ok hwidth htable
  obtain ⟨u, hcheck, htable⟩ := bind_eq_ok.mp htable
  obtain ⟨noSelection, hfilled, htable⟩ := bind_eq_ok.mp htable
  obtain ⟨-, -, htable⟩ := bind_eq_ok.mp htable
  obtain ⟨entries, hentries, htable⟩ := bind_eq_ok.mp htable
  have hlength : DefaultSelector.checkRegisterLength .binary binaryDefault width muxPathsCount =
      .ok () := hcheck
  obtain ⟨-, hfits⟩ := DefaultSelector.checkRegisterLength_binary hpaths hlength
  have hnarrow : 0 < width % 256 ∧ width % 256 ≤ 32 := by
    by_contra hout
    exact DefaultBinaryPathSelector.selectEntries_rejects (by omega) _ hpaths 1 entries hentries
  rw [DefaultBinaryPathSelector.selectEntries_eq hnarrow.1 hnarrow.2] at hentries
  rw [Bits.filled_zeros hvectors] at hfilled
  obtain rfl := Except.ok.inj hfilled
  obtain rfl := Except.ok.inj hentries
  obtain rfl := Except.ok.inj htable
  have hlast : muxPathsCount - 1 < 2 ^ width := hfits
  exact ⟨hnarrow, by omega, hvectors, hloop, rfl⟩

theorem irTable_eq (hpaths : 1 < muxPathsCount) (width : Nat) :
    ((Bits.zeros width :: (List.range' 1 muxPathsCount).map fun path =>
        numberBits (width % 256) (path - 1)).set 0 (irCode width 1)).set 1 (irCode width 1) =
      (List.range (muxPathsCount + 1)).map (irCode width) := by
  obtain ⟨count, rfl⟩ := Nat.exists_eq_add_of_le' hpaths
  rw [List.range_eq_range', List.range'_succ, List.range'_succ, List.range'_succ]
  simp only [List.map_cons, List.set_cons_zero, List.set_cons_succ]
  refine congrArg₂ List.cons rfl (congrArg₂ List.cons rfl ?_)
  refine congrArg₂ List.cons rfl (List.map_congr_left fun path hpath => ?_)
  have hle := (List.mem_range'_1.mp hpath).1
  rw [irCode, if_neg (by omega)]

theorem createJtagTap_ok (hwidth : width < uint32Size)
    (hcreate : createJtagTap name width muxPathsCount [] reg = .ok tap) :
    (0 < width % 256 ∧ width % 256 ≤ 32) ∧ 1 < muxPathsCount ∧ muxPathsCount ≤ 2 ^ width ∧
      tap.pathSelector = irSelector reg width muxPathsCount ∧
      ∃ irName, tap.ir = Register.create irName (irCode width 1) true .downto := by
  unfold createJtagTap at hcreate
  split at hcreate
  · cases hcreate
  split at hcreate
  · cases hcreate
  rename_i hmany
  have hpaths : 1 < muxPathsCount := not_not.mp hmany
  obtain ⟨⟨selectTable, irBypassSequence⟩, hcodes, hcreate⟩ := bind_eq_ok.mp hcreate
  obtain ⟨table, htable, hcodes⟩ := bind_eq_ok.mp hcodes
  obtain ⟨ones, hones, hcodes⟩ := bind_eq_ok.mp hcodes
  obtain ⟨selector, hselector, hcreate⟩ := bind_eq_ok.mp hcreate
  obtain ⟨bypass, -, hcreate⟩ := bind_eq_ok.mp hcreate
  obtain ⟨hnarrow, hfits, hvectors, hloop, rfl⟩ := createSelectTable_ok (by omega) hwidth htable
  rw [Bits.filled_ones hvectors] at hones
  obtain rfl := Except.ok.inj hones
  cases hcodes
  obtain ⟨-, -, rfl⟩ := DefaultSelector.createFor_ok hselector
  obtain rfl := Except.ok.inj hcreate
  refine ⟨hnarrow, hpaths, hfits, ?_, _, rfl⟩
  have htables := irTable_eq hpaths width
  unfold irSelector
  rw [← htables, Nat.mod_eq_of_lt hloop, List.length_replicate]
  rfl

theorem exists_createJtagTap (hnarrow : width ≤ 32) (hpaths : 1 < muxPathsCount)
    (hfits : muxPathsCount ≤ 2 ^ width) (hloop : muxPathsCount + 1 < uint32Size) :
    ∃ tap, createJtagTap name width muxPathsCount [] reg = .ok tap := by
  have hpos : 0 < width := Nat.pos_of_ne_zero fun hzero => by
    rw [hzero, Nat.pow_zero] at hfits
    omega
  have hbits : Utility.minimalBitsForValue (muxPathsCount - 1) ≤ width := by
    have hle := Utility.minimalBits_le (show 0 < muxPathsCount - 1 by omega)
    have hlt := (Nat.pow_lt_pow_iff_right (show 1 < 2 by decide)).mp
      (show 2 ^ (Utility.minimalBitsForValue (muxPathsCount - 1) - 1) < 2 ^ width by omega)
    omega
  have hlength : DefaultSelector.checkRegisterLength .binary binaryDefault width muxPathsCount =
      .ok () := by
    have hmax : (if binaryDefault.canSelectNone = false ∧ muxPathsCount ≠ 0 then muxPathsCount - 1
        else muxPathsCount) = muxPathsCount - 1 := if_pos ⟨rfl, by omega⟩
    simp only [DefaultSelector.checkRegisterLength, DefaultBinaryPathSelector.checkRegisterLength,
      DefaultTableBasedPathSelector.checkRegisterLength, hmax]
    exact if_neg (by omega)
  have htable := DefaultSelector.createSelectTable_binary hpos hnarrow hloop hlength
  have hones := Bits.filled_ones (show width + 7 < uint32Size by unfold uint32Size; omega)
  have hone : Bits.filled 1 0xFF = .ok [true] := Bits.filled_ones (by decide)
  have hcodes : ∃ table : List Bits, irCodes width muxPathsCount [] =
      .ok (table, List.replicate width true) ∧ table.length = muxPathsCount + 1 := by
    simp only [irCodes, htable, hones, bind, Except.bind]
    exact ⟨_, rfl, by simp⟩
  obtain ⟨table, hcodes, hsize⟩ := hcodes
  have hselector : ∃ p, createFor .tableBased reg (List.replicate width true).length muxPathsCount
      table (List.replicate ((muxPathsCount + 1) % uint32Size) (List.replicate width true))
      binaryDefault = .ok p := by
    rw [List.length_replicate, Nat.mod_eq_of_lt hloop, createFor, if_neg (Nat.ne_of_gt hpos),
      DefaultTableBasedPathSelector.create, if_neg (by simp [hsize]), if_neg (by simp)]
    exact ⟨_, rfl⟩
  obtain ⟨p, hselector⟩ := hselector
  unfold createJtagTap
  rw [if_neg (by omega), if_neg (not_not.mpr hpaths)]
  exact ⟨_, bind_eq_ok.mpr ⟨_, hcodes, bind_eq_ok.mpr ⟨p, hselector, bind_eq_ok.mpr ⟨_, hone, rfl⟩⟩⟩⟩

theorem irSelector_entry (hle : path ≤ muxPathsCount) :
    (irSelector reg width muxPathsCount).entry (irSelector reg width muxPathsCount).selectTable
      path = .ok (irCode width path) := by
  have hin : path < muxPathsCount + 1 := by omega
  exact PathSelector.entry_eq (by simpa [irSelector] using hin)
    (by simp [irSelector, List.getElem?_range hin])

theorem irSelector_entry_deselect (hle : path ≤ muxPathsCount) :
    (irSelector reg width muxPathsCount).entry (irSelector reg width muxPathsCount).deselectTable
      path = .ok (irCode width 1) := by
  have hin : path < muxPathsCount + 1 := by omega
  exact PathSelector.entry_eq (by simpa [irSelector] using hin)
    (List.getElem?_replicate_of_lt hin)

/-- Deselecting a path sends the instruction of the bypass register. -/
theorem irSelector_orFirstPath (hpaths : 0 < muxPathsCount) :
    (irSelector reg width muxPathsCount).orFirstPath (irCode width 1) = .ok (irCode width 1) := by
  obtain ⟨count, rfl⟩ := Nat.exists_eq_succ_of_ne_zero (Nat.ne_of_gt hpaths)
  simp only [PathSelector.orFirstPath, irSelector, List.range_eq_range', List.range'_succ,
    List.map_cons, Bool.false_eq_true, if_false]
  exact congrArg Except.ok (if_pos rfl)

theorem numberBits_ones (width : Nat) :
    numberBits width (2 ^ width - 1) = List.replicate width true := by
  refine List.eq_replicate_iff.mpr ⟨BinaryVector.numberBits_length _ _, fun bit hbit => ?_⟩
  obtain ⟨i, hi, rfl⟩ := List.mem_map.mp hbit
  rw [Nat.testBit_two_pow_sub_one, decide_eq_true_iff]
  have hlt := List.mem_range.mp hi
  omega

section Narrow

variable (hnarrow : width ≤ 32)
include hnarrow

theorem irCode_length (path : Nat) : (irCode width path).length = width := by
  have hmod : width % 256 = width := Nat.mod_eq_of_lt (by omega)
  rw [irCode, hmod]
  split
  · exact List.length_replicate
  · exact BinaryVector.numberBits_length _ _

/-- Unless the paths use all the values, none of them has the instruction of the bypass register. -/
theorem irCode_injective (hfits : muxPathsCount ≤ 2 ^ width) (hspare : muxPathsCount ≠ 2 ^ width)
    {path' : Nat} (hpath : 0 < path) (hle : path ≤ muxPathsCount) (hpath' : 0 < path')
    (hle' : path' ≤ muxPathsCount) (hcode : irCode width path = irCode width path') :
    path = path' := by
  have hmod : width % 256 = width := Nat.mod_eq_of_lt (by omega)
  have hnumber : ∀ path, 0 < path → irCode width path =
      numberBits width (if path = 1 then 2 ^ width - 1 else path - 1) := by
    intro path hpath
    by_cases hfirst : path = 1
    · rw [if_pos hfirst, numberBits_ones, irCode, if_pos (by omega)]
    · rw [if_neg hfirst, irCode, if_neg (by omega), hmod]
  rw [hnumber path hpath, hnumber path' hpath'] at hcode
  have hsame := BinaryVector.numberBits_injective (by split <;> omega) (by split <;> omega) hcode
  split at hsame <;> split at hsame <;> omega

/-! ### Runs -/

variable (hwidth : 0 < width) {s : SystemModel} {last : Bits}
include hwidth

theorem mux_after (hpath : 0 < path) (hle : path ≤ muxPathsCount)
    (hmux : s.Mux reg width (irCode width path) last) {call : SelectorCall}
    (hcall : NamesDrPath muxPathsCount call) :
    (0 < pathAfter path call ∧ pathAfter path call ≤ muxPathsCount) ∧
      ∃ last', (call.after (irSelector reg width muxPathsCount) reg s).Mux reg width
        (irCode width (pathAfter path call)) last' := by
  have hbound : width < uint32Size := lt_of_le_of_lt hnarrow (by decide)
  cases call with
  | select path' =>
    obtain ⟨s', hselect, hmux'⟩ := PathSelector.select_mux
      (p := irSelector reg width muxPathsCount) rfl hwidth hbound hmux SelectorKind.noConfusion
      (irSelector_entry hcall.2) (irCode_length hnarrow _)
    rw [SelectorCall.after, hselect]
    exact ⟨hcall, last, hmux'⟩
  | deselect path' =>
    obtain ⟨s', hdeselect, hmux'⟩ := PathSelector.deselect_mux
      (p := irSelector reg width muxPathsCount) rfl hwidth hbound hmux SelectorKind.noConfusion
      (irSelector_entry_deselect hcall.2) (irSelector_orFirstPath (by omega))
      (irCode_length hnarrow _)
    rw [SelectorCall.after, hdeselect]
    exact ⟨⟨Nat.one_pos, by rw [pathAfter]; omega⟩, last, hmux'⟩
  | updateLastToSut => exact ⟨⟨hpath, hle⟩, _, hmux.updateLastToSut⟩

theorem mux_afterCalls {calls : List SelectorCall}
    (hcalls : ∀ call ∈ calls, NamesDrPath muxPathsCount call) (hpath : 0 < path)
    (hle : path ≤ muxPathsCount) (hmux : s.Mux reg width (irCode width path) last) :
    (0 < calls.foldl pathAfter path ∧ calls.foldl pathAfter path ≤ muxPathsCount) ∧
      ∃ last', ((irSelector reg width muxPathsCount).afterCalls reg s calls).Mux reg width
        (irCode width (calls.foldl pathAfter path)) last' := by
  induction calls generalizing path s last with
  | nil => exact ⟨⟨hpath, hle⟩, last, hmux⟩
  | cons call calls ih =>
    obtain ⟨⟨hpath', hle'⟩, last', hmux'⟩ :=
      mux_after hnarrow hwidth hpath hle hmux (hcalls call List.mem_cons_self)
    exact ih (fun c hc => hcalls c (List.mem_cons_of_mem _ hc)) hpath' hle' hmux'

end Narrow

theorem onlyPath_of_code (hnarrow : width ≤ 32) (hfits : muxPathsCount ≤ 2 ^ width)
    (hspare : muxPathsCount ≠ 2 ^ width) (hpath : 0 < path) (hle : path ≤ muxPathsCount)
    {test : Nat → Except Fault Bool}
    (htest : ∀ other, other ≤ muxPathsCount →
      test other = .ok (irCode width path == irCode width other)) :
    OnlyPath muxPathsCount path test where
  here := by rw [htest path hle, beq_self_eq_true]
  elsewhere other hother hle' hne := by
    rw [htest other hle']
    refine congrArg Except.ok (beq_eq_false_iff_ne.mpr fun hcode => hne ?_)
    exact (irCode_injective hnarrow hfits hspare hpath hle hother hle' hcode).symm

theorem unambiguous_of_spare (hwidth : width < uint32Size)
    (hcreate : createJtagTap name width muxPathsCount [] reg = .ok tap) (hnarrow : width ≤ 32)
    (hspare : muxPathsCount ≠ 2 ^ width) : tap.Unambiguous reg muxPathsCount := by
  obtain ⟨hmod, hpaths, hfits, hselector, irName, hir⟩ := createJtagTap_ok hwidth hcreate
  have hpos : 0 < width := Nat.pos_of_ne_zero fun hzero => by
    rw [hzero] at hmod
    exact absurd hmod.1 (by decide)
  have hentry : ∀ path, path ≤ muxPathsCount →
      tap.pathSelector.selectTable[path]? = some (irCode width path) := by
    intro path hle
    rw [hselector]
    simp [irSelector, List.getElem?_range (show path < muxPathsCount + 1 by omega)]
  constructor
  · intro path path' hpath hle hpath' hle' hsame
    rw [hentry path hle, hentry path' hle'] at hsame
    exact irCode_injective hnarrow hfits hspare hpath hle hpath' hle' (Option.some.inj hsame)
  · rw [hentry 1 (by omega), hir]
    exact ⟨rfl, rfl, fun bit hbit => List.eq_of_mem_replicate hbit⟩
  · intro s calls hs hcalls
    have hmux : s.Mux reg width (irCode width 1) (irCode width 1) := by
      have hlength := irCode_length hnarrow 1
      constructor <;> rw [hs, hir]
      · exact ⟨hlength, hlength, hlength⟩
      · exact nofun
      · rfl
      · rfl
    obtain ⟨⟨hpath, hle⟩, last, hmux'⟩ :=
      mux_afterCalls hnarrow hpos hcalls Nat.one_pos (by omega) hmux
    rw [hselector]
    constructor
    · refine onlyPath_of_code hnarrow hfits hspare hpath hle fun other hle' => ?_
      exact PathSelector.isSelected_mux (p := irSelector reg width muxPathsCount) rfl hpos hwidth
        hmux' (irSelector_entry hle') (irCode_length hnarrow other)
    · refine onlyPath_of_code hnarrow hfits hspare hpath hle fun other hle' => ?_
      rw [PathSelector.afterCalls, List.foldl_append]
      exact PathSelector.isActive_mux (p := irSelector reg width muxPathsCount) rfl hpos hwidth
        hmux'.updateLastToSut (irSelector_entry hle') (irCode_length hnarrow other)

/-- The second path cannot be selected when its instruction is shorter than the register. -/
theorem narrow_of_unambiguous (hwidth : width < uint32Size)
    (hcreate : createJtagTap name width muxPathsCount [] reg = .ok tap)
    (htap : tap.Unambiguous reg muxPathsCount) : width ≤ 32 := by
  obtain ⟨hmod, hpaths, hfits, hselector, irName, hir⟩ := createJtagTap_ok hwidth hcreate
  by_contra hwide
  have hshort : (irCode width 2).length < width := by
    rw [irCode, if_neg (by decide), BinaryVector.numberBits_length]
    omega
  have hlength : (irCode width 1).length = width := List.length_replicate
  let s : SystemModel := ⟨[], fun _ => tap.ir, fun _ => 0, fun _ => 0⟩
  have hmux : s.Mux reg width (irCode width 1) (irCode width 1) := by
    constructor <;> rw [show s.registers reg = tap.ir from rfl, hir]
    · exact ⟨hlength, hlength, hlength⟩
    · exact nofun
    · rfl
    · rfl
  obtain ⟨⟨hselected, -⟩, -⟩ := htap.runs s [.select 2] rfl fun call hcall => by
    rw [List.mem_singleton.mp hcall]
    exact ⟨by decide, hpaths⟩
  have hentry := @irSelector_entry reg width muxPathsCount 2 hpaths
  have hthrows : ∀ s', tap.pathSelector.select 2 s ≠ .ok s' := fun s' => by
    rw [hselector]
    exact PathSelector.select_short rfl (by omega) hwidth hmux rfl hentry hshort
  have hafter : tap.pathSelector.afterCalls reg s [.select 2] = s := by
    rw [PathSelector.afterCalls, List.foldl_cons, List.foldl_nil, SelectorCall.after]
    cases hselect : tap.pathSelector.select 2 s with
    | error fault => rfl
    | ok s' => exact absurd hselect (hthrows s')
  have hread := VirtualRegister.nextToSut_whole hmux (by omega) hwidth
  have htest : (irSelector reg width muxPathsCount).isSelected s 2 =
      .ok (irCode width 1 == irCode width 2) := by
    rw [PathSelector.isSelected, hentry]
    change ((VirtualRegister.ofRegister reg width).nextToSut s >>= _) = _
    rw [hread]
    rfl
  rw [hafter, hselector, List.foldl_cons, List.foldl_nil, pathAfter, htest] at hselected
  have hsame := beq_iff_eq.mp (Except.ok.inj hselected)
  rw [← hsame, hlength] at hshort
  exact Nat.lt_irrefl _ hshort

/-- The instructions of a TAP are unambiguous exactly when the register has at most 32 bits and the paths do not use all its values. -/
theorem unambiguous_iff (hwidth : width < uint32Size)
    (hcreate : createJtagTap name width muxPathsCount [] reg = .ok tap) :
    tap.Unambiguous reg muxPathsCount ↔ width ≤ 32 ∧ muxPathsCount ≠ 2 ^ width := by
  constructor
  · intro htap
    have hnarrow := narrow_of_unambiguous hwidth hcreate htap
    refine ⟨hnarrow, fun hall => ?_⟩
    obtain ⟨-, hpaths, -, hselector, -⟩ := createJtagTap_ok hwidth hcreate
    have hmod : width % 256 = width := Nat.mod_eq_of_lt (by omega)
    have hlast : irCode width muxPathsCount = irCode width 1 := by
      rw [irCode, if_neg (by omega), hmod, hall, numberBits_ones]
      rfl
    have hsame := htap.distinct muxPathsCount 1 (by omega) (Nat.le_refl _) Nat.one_pos (by omega) (by
      rw [hselector]
      simp [irSelector, List.getElem?_range (show 1 < muxPathsCount + 1 by omega), hlast])
    omega
  · rintro ⟨hnarrow, hspare⟩
    exact unambiguous_of_spare hwidth hcreate hnarrow hspare

theorem unambiguous_four_bits :
    ∃ tap, createJtagTap "" 4 3 [] 1 = .ok tap ∧ tap.Unambiguous 1 3 := by
  obtain ⟨tap, hcreate⟩ := @exists_createJtagTap "" 1 4 3 (by decide) (by decide) (by decide)
    (by decide)
  exact ⟨tap, hcreate, (unambiguous_iff (by decide) hcreate).mpr ⟨by decide, by decide⟩⟩

/-- With an instruction register of one bit, both paths have the instruction `1`. -/
theorem not_unambiguous_one_bit :
    ∃ tap, createJtagTap "" 1 2 [] 1 = .ok tap ∧ ¬tap.Unambiguous 1 2 := by
  obtain ⟨tap, hcreate⟩ := @exists_createJtagTap "" 1 1 2 (by decide) (by decide) (by decide)
    (by decide)
  refine ⟨tap, hcreate, fun htap => ?_⟩
  obtain ⟨-, -, -, hselector, -⟩ := createJtagTap_ok (by decide) hcreate
  have hsame := htap.distinct 1 2 (by decide) (by decide) (by decide) (by decide) (by
    rw [hselector]
    rfl)
  exact absurd hsame (by decide)

end SystemModelBuilder

end Mast
