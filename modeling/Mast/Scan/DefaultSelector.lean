import Mast.Scan.SelectorTables

/-!
# The default selectors

What the tables of the binary, one-hot and N-hot selectors hold is said here once for the three kinds, by `DefaultSelector.code`, with the conditions under which the constructors succeed.
-/

namespace Mast

open BinaryVector (numberBits)
open DefaultTableBasedPathSelector (orInverted checkLoop createFor)
open Outcome

inductive DefaultSelector
  | binary
  | oneHot
  | nHot
  deriving DecidableEq

namespace DefaultSelector

variable (kind : DefaultSelector) (properties : SelectorProperty)

def create : DefaultSelector → Nat → Nat → Nat → SelectorProperty → Except Fault PathSelector
  | .binary => DefaultBinaryPathSelector.create
  | .oneHot => DefaultOneHotPathSelector.create
  | .nHot => DefaultNHotPathSelector.create

/-- The check that each constructor does on the length of its register. -/
def checkRegisterLength (registerLength pathsCount : Nat) : Except Fault Unit :=
  match kind with
  | .binary =>
    DefaultBinaryPathSelector.checkRegisterLength registerLength pathsCount properties.canSelectNone
  | _ =>
    DefaultOneHotPathSelector.checkRegisterLength registerLength pathsCount properties.startAtZero

def selectorKind : SelectorKind :=
  match kind with
  | .binary => .tableBased
  | .oneHot => .oneHot
  | .nHot => .nHot

def zeroEntries : Nat := if kind ≠ .binary ∧ properties.startAtZero then 2 else 1

/-- The value of a path in a selector without `InvertedBits`. -/
def plainCode (width path : Nat) : Bits :=
  match kind with
  | .binary => numberBits width (if properties.canSelectNone then path else path - 1)
  | _ =>
    if path < kind.zeroEntries properties then Bits.zeros width
    else hotBit width properties.reverseOrder (path - kind.zeroEntries properties)

def code (width path : Nat) : Bits :=
  if properties.invertedBits then (kind.plainCode properties width path).toggled
  else kind.plainCode properties width path

def deselectCode (width path : Nat) : Bits :=
  match kind with
  | .nHot => (kind.code properties width path).toggled
  | _ => List.replicate width properties.invertedBits

def selector (reg width pathsCount : Nat) : PathSelector where
  kind := kind.selectorKind
  canSelectNone := properties.canSelectNone
  invertedBits := properties.invertedBits
  pathsCount := pathsCount
  selectTable := (List.range (pathsCount + kind.zeroEntries properties)).map
    (kind.code properties width)
  deselectTable := (List.range (pathsCount + kind.zeroEntries properties)).map
    (kind.deselectCode properties width)
  muxRegisters := .ofRegister reg width

/-- The constructor agrees with its check: the binary one takes values of at most 32 bits, `StartAtZero` does not spare a bit, and the sizes and counters stay within 32 bits. -/
structure Builds (width pathsCount : Nat) : Prop where
  vectors : width + 7 < uint32Size
  binary : kind = .binary → width ≤ 32
  startAtZero : kind ≠ .binary → properties.startAtZero = true → pathsCount ≤ width
  loop : pathsCount + 1 < uint32Size
  deselectTable : kind = .oneHot → properties.startAtZero = true → pathsCount + 2 < uint32Size

section Tables

variable {kind properties}

theorem orInverted_map {α : Type} (invertedBits : Bool) (code : α → Bits) (l : List α) :
    orInverted invertedBits (l.map code) =
      l.map fun a => if invertedBits then (code a).toggled else code a := by
  cases invertedBits with
  | false => rfl
  | true => exact List.map_map

theorem zeroEntries_hot (hkind : kind ≠ .binary) :
    kind.zeroEntries properties = if properties.startAtZero then 2 else 1 := by
  simp [zeroEntries, hkind]

theorem plainCode_hot (hkind : kind ≠ .binary) (width path : Nat) :
    kind.plainCode properties width path =
      if path < kind.zeroEntries properties then Bits.zeros width
      else hotBit width properties.reverseOrder (path - kind.zeroEntries properties) := by
  cases kind with
  | binary => exact absurd rfl hkind
  | oneHot => rfl
  | nHot => rfl

theorem numberBits_zero (width : Nat) : numberBits width 0 = Bits.zeros width := by
  simp [numberBits, Bits.zeros]

theorem hotTable_eq (hkind : kind ≠ .binary) (width pathsCount : Nat) :
    (List.range (pathsCount + kind.zeroEntries properties)).map (kind.plainCode properties width) =
      (if properties.startAtZero then [Bits.zeros width, Bits.zeros width]
        else [Bits.zeros width]) ++
      (List.range' 0 pathsCount).map (hotBit width properties.reverseOrder) := by
  have hzeros : (List.range (kind.zeroEntries properties)).map (kind.plainCode properties width) =
      List.replicate (kind.zeroEntries properties) (Bits.zeros width) := by
    refine List.eq_replicate_iff.mpr ⟨by simp, fun bits hbits => ?_⟩
    obtain ⟨path, hpath, rfl⟩ := List.mem_map.mp hbits
    rw [plainCode_hot hkind, if_pos (List.mem_range.mp hpath)]
  have hhot (path : Nat) :
      kind.plainCode properties width (kind.zeroEntries properties + path) =
        hotBit width properties.reverseOrder path := by
    rw [plainCode_hot hkind, if_neg (by omega), Nat.add_sub_cancel_left]
  have hentries : ((List.range pathsCount).map (kind.zeroEntries properties + ·)).map
      (kind.plainCode properties width) =
        (List.range' 0 pathsCount).map (hotBit width properties.reverseOrder) := by
    rw [List.map_map, ← List.range_eq_range']
    exact List.map_congr_left fun path _ => hhot path
  rw [Nat.add_comm, List.range_add, List.map_append, hzeros, hentries, zeroEntries_hot hkind]
  congr 1
  split <;> rfl

theorem binaryTable_eq (width pathsCount : Nat) :
    (List.range (pathsCount + 1)).map (plainCode .binary properties width) =
      Bits.zeros width :: (List.range' 1 pathsCount).map fun path =>
        numberBits width (if properties.canSelectNone then path else path - 1) := by
  have hzero : plainCode .binary properties width 0 = Bits.zeros width := by
    rw [← numberBits_zero, plainCode]
    split <;> rfl
  rw [List.range_eq_range', List.range'_succ, List.map_cons, hzero]
  rfl

/-! ### Each constructor under its conditions -/

theorem createSelectTable_binary {width pathsCount : Nat} (hpos : 0 < width) (hle : width ≤ 32)
    (hloop : pathsCount + 1 < uint32Size)
    (hlength : checkRegisterLength .binary properties width pathsCount = .ok ()) :
    DefaultBinaryPathSelector.createSelectTable width pathsCount properties =
      .ok ((List.range (pathsCount + 1)).map (code .binary properties width)) := by
  have hwidth : width % 256 = width := Nat.mod_eq_of_lt (by omega)
  have hentries := @DefaultBinaryPathSelector.selectEntries_eq width (by omega) (by omega)
    properties.canSelectNone pathsCount 1
  rw [hwidth] at hentries
  have htable := orInverted_map properties.invertedBits (plainCode .binary properties width)
    (List.range (pathsCount + 1))
  rw [binaryTable_eq] at htable
  have hcheck : DefaultBinaryPathSelector.checkRegisterLength width pathsCount
      properties.canSelectNone = .ok () := hlength
  have hzeros := Bits.filled_zeros (show width + 7 < uint32Size by unfold uint32Size; omega)
  simp only [DefaultBinaryPathSelector.createSelectTable, hcheck, hzeros, checkLoop, if_pos hloop,
    hentries, bind, Except.bind]
  exact congrArg Except.ok htable

theorem createSelectTable_hot (hkind : kind ≠ .binary) {width pathsCount : Nat}
    (hvectors : width + 7 < uint32Size) (hle : pathsCount ≤ width) (hloop : pathsCount + 1 < uint32Size)
    (hlength : kind.checkRegisterLength properties width pathsCount = .ok ()) :
    DefaultOneHotPathSelector.createSelectTable width pathsCount properties =
      .ok ((List.range (pathsCount + kind.zeroEntries properties)).map
        (kind.code properties width)) := by
  have hwidth : width < uint32Size := by omega
  have hentries := DefaultOneHotPathSelector.selectEntries_eq hwidth properties.reverseOrder
    pathsCount (show 0 + pathsCount ≤ width by omega)
  have htable := orInverted_map properties.invertedBits (kind.plainCode properties width)
    (List.range (pathsCount + kind.zeroEntries properties))
  rw [hotTable_eq hkind] at htable
  have hcheck : DefaultOneHotPathSelector.checkRegisterLength width pathsCount
      properties.startAtZero = .ok () := by
    cases kind with
    | binary => exact absurd rfl hkind
    | oneHot => exact hlength
    | nHot => exact hlength
  have hstart : DefaultOneHotPathSelector.offsetOf width properties.reverseOrder 0 =
      if properties.reverseOrder then pred32 width else 0 := by
    rw [DefaultOneHotPathSelector.offsetOf, Nat.sub_zero]
  rw [hstart] at hentries
  simp only [DefaultOneHotPathSelector.createSelectTable, hcheck, Bits.filled_zeros hvectors,
    checkLoop, if_pos hloop, hentries, bind, Except.bind]
  refine congrArg Except.ok (Eq.trans ?_ htable)
  cases properties.startAtZero <;> rfl

/-- The tables for deselection of the binary and one-hot selectors hold one value. -/
theorem deselectTable_eq (invertedBits : Bool) (width : Nat) {size : Nat} (hsize : size < uint32Size) :
    orInverted invertedBits (List.replicate (size % uint32Size) (Bits.zeros width)) =
      (List.range size).map fun _ => List.replicate width invertedBits := by
  rw [Nat.mod_eq_of_lt hsize, ← List.length_range (n := size), ← List.map_const',
    orInverted_map, List.length_range]
  refine List.map_congr_left fun _ _ => ?_
  cases invertedBits with
  | false => rfl
  | true => exact List.map_replicate

theorem tableBased_create_eq {sk : SelectorKind} {reg width pathsCount size : Nat}
    {select deselect : Nat → Bits} (hpos : 0 < width) (hsize : pathsCount < size) :
    createFor sk reg width pathsCount ((List.range size).map select)
        ((List.range size).map deselect) properties =
      .ok ⟨sk, properties.canSelectNone, properties.invertedBits, pathsCount,
        (List.range size).map select, (List.range size).map deselect, .ofRegister reg width⟩ := by
  rw [createFor, if_neg (by omega), DefaultTableBasedPathSelector.create, if_neg (by simp),
    if_neg (by simpa using hsize)]

theorem checkRegisterLength_le {selector : String} {registerLength minimum : Nat}
    (hlength : DefaultTableBasedPathSelector.checkRegisterLength selector registerLength minimum =
      .ok ()) : minimum ≤ registerLength := by
  by_contra hshort
  rw [DefaultTableBasedPathSelector.checkRegisterLength, if_pos (by omega)] at hlength
  cases hlength

/-- The largest value of a binary selector fits in its register. -/
theorem checkRegisterLength_binary {width pathsCount : Nat} (hpaths : 0 < pathsCount)
    (hlength : checkRegisterLength .binary properties width pathsCount = .ok ()) :
    0 < width ∧ (if properties.canSelectNone then pathsCount else pathsCount - 1) < 2 ^ width := by
  have hle := checkRegisterLength_le hlength
  generalize hmax : (if properties.canSelectNone = false ∧ pathsCount ≠ 0 then pathsCount - 1
    else pathsCount) = maxSelectorValue at hle
  have hsame : (if properties.canSelectNone then pathsCount else pathsCount - 1) =
      maxSelectorValue := by
    rw [← hmax]
    cases properties.canSelectNone with
    | false => rw [if_neg Bool.false_ne_true, if_pos ⟨rfl, by omega⟩]
    | true => rw [if_pos rfl, if_neg (by simp)]
  have hminimum := Utility.minimalBits_pos maxSelectorValue
  have hfits := Utility.lt_minimalBits maxSelectorValue
  have hpow : 2 ^ Utility.minimalBitsForValue maxSelectorValue ≤ 2 ^ width :=
    Nat.pow_le_pow_right (by decide) hle
  rw [hsame]
  omega

theorem checkRegisterLength_hot (hkind : kind ≠ .binary) {width pathsCount : Nat}
    (hlength : kind.checkRegisterLength properties width pathsCount = .ok ()) :
    DefaultOneHotPathSelector.checkRegisterLength width pathsCount properties.startAtZero = .ok () ∧
      (properties.startAtZero = false → pathsCount ≤ width) := by
  have hcheck : DefaultOneHotPathSelector.checkRegisterLength width pathsCount
      properties.startAtZero = .ok () := by
    cases kind with
    | binary => exact absurd rfl hkind
    | oneHot => exact hlength
    | nHot => exact hlength
  refine ⟨hcheck, fun hstart => ?_⟩
  have hle := checkRegisterLength_le hcheck
  rwa [hstart] at hle

theorem Builds.width_le (hkind : kind ≠ .binary) {width pathsCount : Nat}
    (hlength : kind.checkRegisterLength properties width pathsCount = .ok ())
    (hbuilds : kind.Builds properties width pathsCount) : pathsCount ≤ width := by
  cases hstart : properties.startAtZero with
  | false => exact (checkRegisterLength_hot hkind hlength).2 hstart
  | true => exact hbuilds.startAtZero hkind hstart

theorem Builds.width_pos {width pathsCount : Nat} (hpaths : 0 < pathsCount)
    (hlength : kind.checkRegisterLength properties width pathsCount = .ok ())
    (hbuilds : kind.Builds properties width pathsCount) : 0 < width := by
  by_cases hkind : kind = .binary
  · subst hkind
    exact (checkRegisterLength_binary hpaths hlength).1
  · have hle := hbuilds.width_le hkind hlength
    omega

theorem tableSize_lt {width pathsCount : Nat} (hkind : kind ≠ .nHot)
    (hbuilds : kind.Builds properties width pathsCount) :
    pathsCount + kind.zeroEntries properties < uint32Size := by
  have hloop := hbuilds.loop
  by_cases hbinary : kind = .binary
  · subst hbinary
    exact hloop
  · have hone : kind = .oneHot := by
      cases kind with
      | binary => exact absurd rfl hbinary
      | oneHot => rfl
      | nHot => exact absurd rfl hkind
    rw [zeroEntries_hot hbinary]
    split
    · exact hbuilds.deselectTable hone ‹_›
    · exact hloop

theorem Builds.create_selector {reg width pathsCount : Nat} (hpos : 0 < width)
    (hlength : kind.checkRegisterLength properties width pathsCount = .ok ())
    (hbuilds : kind.Builds properties width pathsCount) :
    kind.create reg width pathsCount properties =
      .ok (kind.selector properties reg width pathsCount) := by
  have hsize : pathsCount < pathsCount + kind.zeroEntries properties := by
    unfold zeroEntries
    split <;> omega
  cases kind with
  | binary =>
    have hselect := createSelectTable_binary hpos (hbuilds.binary rfl) hbuilds.loop hlength
    have hcheck : DefaultBinaryPathSelector.checkRegisterLength width pathsCount
        properties.canSelectNone = .ok () := hlength
    have hdeselect := deselectTable_eq properties.invertedBits width hbuilds.loop
    simp only [create, DefaultBinaryPathSelector.create, hselect,
      DefaultBinaryPathSelector.createDeselectTable, hcheck, Bits.filled_zeros hbuilds.vectors,
      hdeselect, bind, Except.bind, pure, Except.pure]
    exact tableBased_create_eq hpos hsize
  | oneHot =>
    have hkind : DefaultSelector.oneHot ≠ .binary := by decide
    have hselect := createSelectTable_hot hkind hbuilds.vectors (hbuilds.width_le hkind hlength)
      hbuilds.loop hlength
    have hcheck := (checkRegisterLength_hot hkind hlength).1
    have hdeselect := deselectTable_eq properties.invertedBits width
      (tableSize_lt (by decide) hbuilds)
    rw [zeroEntries_hot hkind] at hdeselect
    simp only [create, DefaultOneHotPathSelector.create, hselect,
      DefaultOneHotPathSelector.createDeselectTable, hcheck, Bits.filled_zeros hbuilds.vectors,
      hdeselect, bind, Except.bind, pure, Except.pure]
    rw [← zeroEntries_hot hkind]
    exact tableBased_create_eq hpos hsize
  | nHot =>
    have hkind : DefaultSelector.nHot ≠ .binary := by decide
    have hselect := createSelectTable_hot hkind hbuilds.vectors (hbuilds.width_le hkind hlength)
      hbuilds.loop hlength
    simp only [create, DefaultNHotPathSelector.create, DefaultNHotPathSelector.createSelectTable,
      DefaultNHotPathSelector.createDeselectTable, hselect,
      DefaultTableBasedPathSelector.invertTable, List.map_map, bind, Except.bind, pure, Except.pure]
    exact tableBased_create_eq hpos hsize

theorem Builds.create_eq {reg width pathsCount : Nat} (hpaths : 0 < pathsCount)
    (hlength : kind.checkRegisterLength properties width pathsCount = .ok ())
    (hbuilds : kind.Builds properties width pathsCount) :
    kind.create reg width pathsCount properties =
      .ok (kind.selector properties reg width pathsCount) :=
  hbuilds.create_selector (hbuilds.width_pos hpaths hlength) hlength

/-! ### What a constructor that succeeds tells -/

theorem checkLoop_lt {pathsCount : Nat} {u : Unit} (hloop : checkLoop pathsCount = .ok u) :
    pathsCount + 1 < uint32Size := by
  by_contra hlast
  rw [checkLoop, if_neg hlast] at hloop
  cases hloop

theorem createSelectTable_hot_ok {width pathsCount : Nat} (hwidth : width < uint32Size)
    {table : List Bits}
    (htable : DefaultOneHotPathSelector.createSelectTable width pathsCount properties = .ok table) :
    width + 7 < uint32Size ∧ pathsCount + 1 < uint32Size ∧ pathsCount ≤ width := by
  obtain ⟨-, -, htable⟩ := bind_eq_ok.mp htable
  obtain ⟨temp, htemp, htable⟩ := bind_eq_ok.mp htable
  obtain ⟨u, hloop, htable⟩ := bind_eq_ok.mp htable
  obtain ⟨entries, hentries, -⟩ := bind_eq_ok.mp htable
  have hvectors := Bits.filled_within hwidth htemp
  refine ⟨hvectors, checkLoop_lt hloop, ?_⟩
  rw [Bits.filled_zeros hvectors] at htemp
  obtain rfl := Except.ok.inj htemp
  by_contra hfew
  have hstart : (if properties.reverseOrder then pred32 width else 0) =
      DefaultOneHotPathSelector.offsetOf width properties.reverseOrder 0 := by
    rw [DefaultOneHotPathSelector.offsetOf, Nat.sub_zero]
  rw [hstart] at hentries
  exact DefaultOneHotPathSelector.selectEntries_rejects hwidth _ pathsCount (Nat.zero_le _)
    (by omega) entries hentries

theorem createSelectTable_binary_ok {width pathsCount : Nat} (hwidth : width < uint32Size)
    {table : List Bits}
    (htable : DefaultBinaryPathSelector.createSelectTable width pathsCount properties = .ok table) :
    width + 7 < uint32Size ∧ pathsCount + 1 < uint32Size := by
  obtain ⟨-, -, htable⟩ := bind_eq_ok.mp htable
  obtain ⟨noSelection, hfilled, htable⟩ := bind_eq_ok.mp htable
  obtain ⟨u, hloop, -⟩ := bind_eq_ok.mp htable
  exact ⟨Bits.filled_within hwidth hfilled, checkLoop_lt hloop⟩

theorem createFor_ok {sk : SelectorKind} {reg width pathsCount : Nat}
    {selectTable deselectTable : List Bits} {p : PathSelector}
    (hcreate : createFor sk reg width pathsCount selectTable deselectTable properties = .ok p) :
    0 < width ∧ selectTable.length = deselectTable.length ∧
      p = ⟨sk, properties.canSelectNone, properties.invertedBits, pathsCount, selectTable,
        deselectTable, .ofRegister reg width⟩ := by
  unfold createFor DefaultTableBasedPathSelector.create at hcreate
  split at hcreate
  · cases hcreate
  · rename_i hpos
    split at hcreate
    · cases hcreate
    · rename_i hsame
      split at hcreate
      · cases hcreate
      · exact ⟨Nat.pos_of_ne_zero hpos, not_not.mp hsame, (Except.ok.inj hcreate).symm⟩

theorem create_muxRegisters {reg width pathsCount : Nat} {p : PathSelector}
    (hcreate : kind.create reg width pathsCount properties = .ok p) :
    0 < width ∧ p.muxRegisters = .ofRegister reg width := by
  have hparts {sk : SelectorKind} {selectTable deselectTable : List Bits}
      (h : createFor sk reg width pathsCount selectTable deselectTable properties = .ok p) :
      0 < width ∧ p.muxRegisters = .ofRegister reg width := by
    obtain ⟨hpos, -, rfl⟩ := createFor_ok h
    exact ⟨hpos, rfl⟩
  cases kind <;>
  · obtain ⟨selectTable, -, hcreate⟩ := bind_eq_ok.mp hcreate
    obtain ⟨deselectTable, -, hcreate⟩ := bind_eq_ok.mp hcreate
    exact hparts hcreate

/-- In a register of more than 32 bits the entries of the binary table are too short. -/
theorem createSelectTable_binary_wide {width pathsCount : Nat} (hpaths : 0 < pathsCount)
    (hwide : 32 < width) {table : List Bits}
    (htable : DefaultBinaryPathSelector.createSelectTable width pathsCount properties = .ok table) :
    ∃ value : Bits, table[1]? = some value ∧ value.length < width := by
  obtain ⟨-, -, htable⟩ := bind_eq_ok.mp htable
  obtain ⟨noSelection, -, htable⟩ := bind_eq_ok.mp htable
  obtain ⟨-, -, htable⟩ := bind_eq_ok.mp htable
  obtain ⟨entries, hentries, htable⟩ := bind_eq_ok.mp htable
  by_cases hout : width % 256 = 0 ∨ 32 < width % 256
  · exact absurd hentries
      (DefaultBinaryPathSelector.selectEntries_rejects hout _ hpaths 1 entries)
  · push Not at hout
    rw [DefaultBinaryPathSelector.selectEntries_eq (by omega) hout.2] at hentries
    obtain ⟨count, rfl⟩ := Nat.exists_eq_succ_of_ne_zero (Nat.ne_of_gt hpaths)
    obtain rfl := Except.ok.inj hentries
    obtain rfl := Except.ok.inj htable
    have hshort (value : Nat) : (numberBits (width % 256) value).length < width := by
      rw [BinaryVector.numberBits_length]
      omega
    cases properties.invertedBits with
    | false => exact ⟨_, rfl, hshort _⟩
    | true => exact ⟨_, rfl, by rw [Bits.toggled_length]; exact hshort _⟩

/-- A constructor that succeeds, in a register that is not too wide for a binary selector, has met its conditions. -/
theorem Builds.of_create {reg width pathsCount : Nat} {p : PathSelector}
    (hwidth : width < uint32Size) (hnarrow : kind = .binary → width ≤ 32)
    (hlength : kind.checkRegisterLength properties width pathsCount = .ok ())
    (hcreate : kind.create reg width pathsCount properties = .ok p) :
    kind.Builds properties width pathsCount := by
  cases kind with
  | binary =>
    obtain ⟨table, htable, -⟩ := bind_eq_ok.mp hcreate
    obtain ⟨hvectors, hloop⟩ := createSelectTable_binary_ok hwidth htable
    exact ⟨hvectors, hnarrow, fun hkind => absurd rfl hkind, hloop, nofun⟩
  | nHot =>
    obtain ⟨table, htable, -⟩ := bind_eq_ok.mp hcreate
    obtain ⟨hvectors, hloop, hle⟩ := createSelectTable_hot_ok hwidth htable
    exact ⟨hvectors, nofun, fun _ _ => hle, hloop, nofun⟩
  | oneHot =>
    have hkind : DefaultSelector.oneHot ≠ .binary := by decide
    obtain ⟨table, htable, hcreate⟩ := bind_eq_ok.mp hcreate
    obtain ⟨hvectors, hloop, hle⟩ := createSelectTable_hot_ok hwidth htable
    refine ⟨hvectors, nofun, fun _ _ => hle, hloop, fun _ hstart => ?_⟩
    obtain ⟨deselectTable, hdeselect, hcreate⟩ := bind_eq_ok.mp hcreate
    obtain ⟨-, hsame, -⟩ := createFor_ok hcreate
    rw [createSelectTable_hot hkind hvectors hle hloop hlength, zeroEntries_hot hkind,
      if_pos hstart] at htable
    obtain ⟨-, -, hdeselect⟩ := bind_eq_ok.mp hdeselect
    obtain ⟨value, -, hdeselect⟩ := bind_eq_ok.mp hdeselect
    obtain rfl := Except.ok.inj htable
    obtain rfl := Except.ok.inj hdeselect
    -- the size of the second table is computed in 32 bits
    have hmod : pathsCount + 2 = (pathsCount + 2) % uint32Size := by
      rw [if_pos hstart] at hsame
      unfold orInverted DefaultTableBasedPathSelector.invertTable at hsame
      split at hsame <;> simpa using hsame
    have hlt := Nat.mod_lt (pathsCount + 2) (show 0 < uint32Size by decide)
    omega

end Tables

end DefaultSelector

end Mast
