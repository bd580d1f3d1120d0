import Mast.Scan.WholeRegister

/-!
# Selection tables of the default selectors

The binary, one-hot and N-hot selectors tabulate the value of their register for each path, path zero standing for no path. Each table is built by a loop of its own.
-/

namespace Mast

open BinaryVector (numberBits)
open Outcome

/-! ### Bits -/

namespace Bits

/-- `BinaryVector(bitsCount, fillPattern)`. -/
def filled (bitsCount : Nat) (fillPattern : BitPacking.Byte) : Except Fault Bits :=
  (BinaryVector.ofFillPattern bitsCount fillPattern .notFixed).map BinaryVector.bits

def setBit (bits : Bits) (bitOffset : Nat) : Except Fault Bits :=
  (BinaryVector.build bits.toVector (BinaryVector.setBit bitOffset)).map BinaryVector.bits

def clearBit (bits : Bits) (bitOffset : Nat) : Except Fault Bits :=
  (BinaryVector.build bits.toVector (BinaryVector.clearBit bitOffset)).map BinaryVector.bits

/-- The vector with the last bits of an integer of 32 bits; `Append` takes their number in 8 bits. -/
def ofUInt32 (value numberOfBits : Nat) : Except Fault Bits :=
  (BinaryVector.build .empty
    (BinaryVector.append32 (.ofNat 32 value) (numberOfBits % 256) .right)).map BinaryVector.bits

/-- `operator~`. -/
def toggled (bits : Bits) : Bits := bits.map (!·)

def zeros (bitsCount : Nat) : Bits := List.replicate bitsCount false

theorem filled_eq {bitsCount : Nat} (hbound : bitsCount + 7 < uint32Size) (bitIsOne : Bool) :
    filled bitsCount (BinaryVector.bitByte bitIsOne) = .ok (List.replicate bitsCount bitIsOne) := by
  rw [filled, BinaryVector.ofFillPattern_bitByte hbound]
  exact congrArg Except.ok (BinaryVector.bits_ofBits _ _)

theorem filled_zeros {bitsCount : Nat} (hbound : bitsCount + 7 < uint32Size) :
    filled bitsCount 0x00 = .ok (zeros bitsCount) := filled_eq hbound false

theorem filled_ones {bitsCount : Nat} (hbound : bitsCount + 7 < uint32Size) :
    filled bitsCount 0xFF = .ok (List.replicate bitsCount true) := filled_eq hbound true

theorem filled_within {bitsCount : Nat} (hcount : bitsCount < uint32Size)
    {fillPattern : BitPacking.Byte} {bits : Bits} (hbits : filled bitsCount fillPattern = .ok bits) :
    bitsCount + 7 < uint32Size := by
  obtain ⟨v, hv, -⟩ := map_eq_ok.mp hbits
  exact BinaryVector.ofFillPattern_within hcount hv

@[simp] theorem zeros_length (bitsCount : Nat) : (zeros bitsCount).length = bitsCount :=
  List.length_replicate

theorem setBit_eq {bits : Bits} {bitOffset : Nat} (hin : bitOffset < bits.length) :
    bits.setBit bitOffset = .ok (bits.set bitOffset true) := by
  rw [setBit, BinaryVector.build, toVector, BinaryVector.setBit_ofBits hin]
  exact congrArg Except.ok (BinaryVector.bits_ofBits _ _)

theorem clearBit_eq {bits : Bits} {bitOffset : Nat} (hin : bitOffset < bits.length) :
    bits.clearBit bitOffset = .ok (bits.set bitOffset false) := by
  rw [clearBit, BinaryVector.build, toVector, BinaryVector.clearBit_ofBits hin]
  exact congrArg Except.ok (BinaryVector.bits_ofBits _ _)

theorem setBit_rejects {bits : Bits} {bitOffset : Nat} (hout : bits.length ≤ bitOffset)
    (result : Bits) : bits.setBit bitOffset ≠ .ok result := by
  intro hset
  obtain ⟨vector, hvector, -⟩ := map_eq_ok.mp hset
  have hused : bits.toVector.usedBits ≤ bitOffset := by
    rwa [toVector, BinaryVector.ofBits_usedBits]
  obtain ⟨fault, -, hrun⟩ := BinaryVector.updateBit_rejects hused fun byte mask => byte ||| mask
  rw [BinaryVector.build, BinaryVector.setBit, hrun] at hvector
  cases hvector

theorem ofUInt32_eq {numberOfBits : Nat} (hpos : 0 < numberOfBits % 256)
    (hle : numberOfBits % 256 ≤ 32) (value : Nat) :
    ofUInt32 value numberOfBits = .ok (numberBits (numberOfBits % 256) value) := by
  have hrun := BinaryVector.append32_right (l := []) (p := .notFixed) hpos hle (by decide)
    (by rw [List.length_nil]; unfold uint32Size; omega) value
  rw [ofUInt32, BinaryVector.build, BinaryVector.empty_eq_ofBits, hrun]
  exact congrArg Except.ok (BinaryVector.bits_ofBits _ _)

theorem ofUInt32_rejects {numberOfBits : Nat}
    (hout : numberOfBits % 256 = 0 ∨ 32 < numberOfBits % 256) (value : Nat) (result : Bits) :
    ofUInt32 value numberOfBits ≠ .ok result := by
  intro happend
  obtain ⟨vector, hvector, -⟩ := map_eq_ok.mp happend
  obtain ⟨fault, -, hrun⟩ : BinaryVector.Rejects
      (BinaryVector.append32 (.ofNat 32 value) (numberOfBits % 256) .right) .empty :=
    @BinaryVector.appendUInt_rejects .w32 (numberOfBits % 256) .empty (.inr hout)
      (.ofNat 32 value) .right
  rw [BinaryVector.build, hrun] at hvector
  cases hvector

@[simp] theorem toggled_length (bits : Bits) : bits.toggled.length = bits.length :=
  List.length_map _

theorem toggled_toggled (bits : Bits) : bits.toggled.toggled = bits := by
  simp [toggled, Function.comp_def]

theorem toggled_injective {bits bits' : Bits} (h : bits.toggled = bits'.toggled) : bits = bits' := by
  rw [← toggled_toggled bits, h, toggled_toggled]

end Bits

/-! ### The tables -/

/-- `SelectorProperty`, a set of flags. -/
structure SelectorProperty where
  canSelectNone : Bool
  invertedBits : Bool
  reverseOrder : Bool
  startAtZero : Bool
  deriving DecidableEq

namespace Utility

/-- Minimal numbers of bits for the values up to 15. -/
def bitsForVal : List Nat := [1, 1, 2, 2, 3, 3, 3, 3, 4, 4, 4, 4, 4, 4, 4, 4]

def minimalBitsForValue (value : Nat) : Nat :=
  if value > 15 then 4 + minimalBitsForValue (value / 16) else bitsForVal.getD value 0

end Utility

/-- `value - 1` in 32 bits. -/
def pred32 (value : Nat) : Nat := (value + (uint32Size - 1)) % uint32Size

namespace DefaultTableBasedPathSelector

def invertTable (table : List Bits) : List Bits := table.map Bits.toggled

/-- What the selectors make of a table with or without `InvertedBits`. -/
def orInverted (invertedBits : Bool) (table : List Bits) : List Bits :=
  if invertedBits then invertTable table else table

/-- The check that the selectors do on the length of their register. -/
def checkRegisterLength (selector : String) (registerLength minimum : Nat) : Except Fault Unit :=
  if registerLength < minimum then
    .error (.logicError ("Register associated with " ++ selector ++ " has '" ++
      toString registerLength ++ "' bits even though a minimum of '" ++ toString minimum ++
      "' bits are necessary"))
  else .ok ()

/-- A loop over the path identifiers counts in 32 bits: up to the largest count it never ends. -/
def checkLoop (pathsCount : Nat) : Except Fault Unit :=
  if pathsCount + 1 < uint32Size then .ok () else .error .undefinedBehaviour

def create (kind : SelectorKind) (muxRegisters : VirtualRegister) (pathsCount : Nat)
    (selectTable deselectTable : List Bits) (properties : SelectorProperty) :
    Except Fault PathSelector :=
  if selectTable.length ≠ deselectTable.length then
    .error (.invalidArgument ("(de)Selection tables size differ, got " ++
      toString selectTable.length ++ " for select and " ++ toString deselectTable.length ++
      " for deselect"))
  else if deselectTable.length ≤ pathsCount then
    .error (.invalidArgument
      "Selection and deselection table must have an entry for not used path identifier zero")
  else
    .ok ⟨kind, properties.canSelectNone, properties.invertedBits, pathsCount, selectTable,
      deselectTable, muxRegisters⟩

/-- The constructor from a register, which makes a `VirtualRegister` of it. -/
def createFor (kind : SelectorKind) (reg bitsCount pathsCount : Nat)
    (selectTable deselectTable : List Bits) (properties : SelectorProperty) :
    Except Fault PathSelector :=
  if bitsCount = 0 then .error (.invalidArgument "Register must have at least one bit")
  else
    create kind (.ofRegister reg bitsCount) pathsCount selectTable deselectTable properties

end DefaultTableBasedPathSelector

open DefaultTableBasedPathSelector (orInverted checkLoop createFor)

namespace DefaultBinaryPathSelector

def checkRegisterLength (registerLength pathsCount : Nat) (canSelectNone : Bool) :
    Except Fault Unit :=
  let maxSelectorValue :=
    if canSelectNone = false ∧ pathsCount ≠ 0 then pathsCount - 1 else pathsCount
  DefaultTableBasedPathSelector.checkRegisterLength "DefaultBinaryPathSelector" registerLength
    (Utility.minimalBitsForValue maxSelectorValue)

/-- The loop of `CreateSelectTable`: the entries of `count` paths, from `pathId` on. -/
def selectEntries (registerLength : Nat) (canSelectNone : Bool) :
    Nat → Nat → Except Fault (List Bits)
  | 0, _ => .ok []
  | count + 1, pathId => do
    let selectValue := if canSelectNone then pathId else pathId - 1
    let temp ← Bits.ofUInt32 selectValue registerLength
    let entries ← selectEntries registerLength canSelectNone count (pathId + 1)
    return temp :: entries

def createSelectTable (registerLength pathsCount : Nat) (properties : SelectorProperty) :
    Except Fault (List Bits) := do
  checkRegisterLength registerLength pathsCount properties.canSelectNone
  let noSelection ← Bits.filled registerLength 0x00
  checkLoop pathsCount
  let entries ← selectEntries registerLength properties.canSelectNone pathsCount 1
  return orInverted properties.invertedBits (noSelection :: entries)

def createDeselectTable (registerLength pathsCount : Nat) (properties : SelectorProperty) :
    Except Fault (List Bits) := do
  checkRegisterLength registerLength pathsCount properties.canSelectNone
  let value ← Bits.filled registerLength 0x00
  return orInverted properties.invertedBits
    (List.replicate ((pathsCount + 1) % uint32Size) value)

def create (reg bitsCount pathsCount : Nat) (properties : SelectorProperty) :
    Except Fault PathSelector := do
  let selectTable ← createSelectTable bitsCount pathsCount properties
  let deselectTable ← createDeselectTable bitsCount pathsCount properties
  createFor .tableBased reg bitsCount pathsCount selectTable deselectTable properties

end DefaultBinaryPathSelector

namespace DefaultOneHotPathSelector

/-- With `StartAtZero` the value zero is that of a path. -/
def checkRegisterLength (registerLength pathsCount : Nat) (startAtZero : Bool) :
    Except Fault Unit :=
  DefaultTableBasedPathSelector.checkRegisterLength "DefaultOneHotPathSelector" registerLength
    (if startAtZero then pred32 pathsCount else pathsCount)

/-- The loop of `CreateSelectTable`: the entries of `count` paths, from `selectionBit` on. -/
def selectEntries (reverseOrder : Bool) : Nat → Bits → Nat → Except Fault (List Bits)
  | 0, _, _ => .ok []
  | count + 1, temp, selectionBit => do
    let entry ← temp.setBit selectionBit
    let temp ← entry.clearBit selectionBit
    let selectionBit :=
      if reverseOrder then pred32 selectionBit else (selectionBit + 1) % uint32Size
    let entries ← selectEntries reverseOrder count temp selectionBit
    return entry :: entries

def createSelectTable (registerLength pathsCount : Nat) (properties : SelectorProperty) :
    Except Fault (List Bits) := do
  checkRegisterLength registerLength pathsCount properties.startAtZero
  let temp ← Bits.filled registerLength 0x00
  checkLoop pathsCount
  let selectionBit := if properties.reverseOrder then pred32 registerLength else 0
  let entries ← selectEntries properties.reverseOrder pathsCount temp selectionBit
  let table := if properties.startAtZero then temp :: temp :: entries else temp :: entries
  return orInverted properties.invertedBits table

def createDeselectTable (registerLength pathsCount : Nat) (properties : SelectorProperty) :
    Except Fault (List Bits) := do
  checkRegisterLength registerLength pathsCount properties.startAtZero
  let tableSizeModifier := if properties.startAtZero then 2 else 1
  let value ← Bits.filled registerLength 0x00
  return orInverted properties.invertedBits
    (List.replicate ((pathsCount + tableSizeModifier) % uint32Size) value)

def create (reg bitsCount pathsCount : Nat) (properties : SelectorProperty) :
    Except Fault PathSelector := do
  let selectTable ← createSelectTable bitsCount pathsCount properties
  let deselectTable ← createDeselectTable bitsCount pathsCount properties
  createFor .oneHot reg bitsCount pathsCount selectTable deselectTable properties

end DefaultOneHotPathSelector

namespace DefaultNHotPathSelector

def createSelectTable (registerLength pathsCount : Nat) (properties : SelectorProperty) :
    Except Fault (List Bits) :=
  DefaultOneHotPathSelector.createSelectTable registerLength pathsCount properties

def createDeselectTable (registerLength pathsCount : Nat) (properties : SelectorProperty) :
    Except Fault (List Bits) := do
  let table ← createSelectTable registerLength pathsCount properties
  return DefaultTableBasedPathSelector.invertTable table

def create (reg bitsCount pathsCount : Nat) (properties : SelectorProperty) :
    Except Fault PathSelector := do
  let selectTable ← createSelectTable bitsCount pathsCount properties
  let deselectTable ← createDeselectTable bitsCount pathsCount properties
  createFor .nHot reg bitsCount pathsCount selectTable deselectTable properties

end DefaultNHotPathSelector

/-! ### What the loops build -/

theorem Utility.lt_minimalBits (value : Nat) : value < 2 ^ minimalBitsForValue value := by
  induction value using minimalBitsForValue.induct with
  | case1 value hlarge ih =>
    rw [minimalBitsForValue, if_pos hlarge, Nat.pow_add]
    omega
  | case2 value hsmall =>
    have hle : value ≤ 15 := by omega
    rw [minimalBitsForValue, if_neg hsmall]
    interval_cases value <;> decide

theorem Utility.minimalBits_pos (value : Nat) : 0 < minimalBitsForValue value := by
  rw [minimalBitsForValue]
  split
  · omega
  · have hle : value ≤ 15 := by omega
    interval_cases value <;> decide

/-- No bit is more than needed. -/
theorem Utility.minimalBits_le {value : Nat} (hpos : 0 < value) :
    2 ^ (minimalBitsForValue value - 1) ≤ value := by
  induction value using minimalBitsForValue.induct with
  | case1 value hlarge ih =>
    have hrest := minimalBits_pos (value / 16)
    have hsum : 4 + minimalBitsForValue (value / 16) - 1 =
        4 + (minimalBitsForValue (value / 16) - 1) := by omega
    have hle := ih (by omega)
    rw [minimalBitsForValue, if_pos hlarge, hsum, Nat.pow_add]
    omega
  | case2 value hsmall =>
    have hle : value ≤ 15 := by omega
    rw [minimalBitsForValue, if_neg hsmall]
    interval_cases value <;> decide

theorem Utility.minimalBits_le_32 {value : Nat} (hvalue : value < uint32Size) :
    minimalBitsForValue value ≤ 32 := by
  by_cases hzero : value = 0
  · subst hzero
    rw [minimalBitsForValue, if_neg (by decide)]
    decide
  · by_contra hmany
    have hle := minimalBits_le (Nat.pos_of_ne_zero hzero)
    have hpow : 2 ^ 32 ≤ 2 ^ (minimalBitsForValue value - 1) :=
      Nat.pow_le_pow_right (by decide) (by omega)
    unfold uint32Size at hvalue
    omega

theorem pred32_eq {value : Nat} (hpos : 0 < value) (hvalue : value < uint32Size) :
    pred32 value = value - 1 := by
  have hsum : value + (uint32Size - 1) = value - 1 + uint32Size := by
    unfold uint32Size
    omega
  rw [pred32, hsum, Nat.add_mod_right, Nat.mod_eq_of_lt (by omega)]

/-- The value of a path among those with one bit each. -/
def hotBit (width : Nat) (reverseOrder : Bool) (index : Nat) : Bits :=
  (Bits.zeros width).set (if reverseOrder then width - 1 - index else index) true

@[simp] theorem hotBit_length (width : Nat) (reverseOrder : Bool) (index : Nat) :
    (hotBit width reverseOrder index).length = width := by
  rw [hotBit, List.length_set, Bits.zeros_length]

theorem hotBit_injective {width index index' : Nat} {reverseOrder : Bool} (hindex : index < width)
    (hindex' : index' < width)
    (hbits : hotBit width reverseOrder index = hotBit width reverseOrder index') :
    index = index' := by
  have hset := congrArg (fun bits : Bits =>
    bits[if reverseOrder then width - 1 - index else index]?) hbits
  have hin : (if reverseOrder then width - 1 - index else index) < width := by
    split <;> omega
  simp only [hotBit, Bits.zeros, List.getElem?_set, List.length_replicate, if_pos hin, if_true,
    List.getElem?_replicate] at hset
  by_contra hne
  have hapart : (if reverseOrder then width - 1 - index' else index') ≠
      (if reverseOrder then width - 1 - index else index) := by
    split <;> omega
  rw [if_neg hapart] at hset
  cases hset

theorem toggled_hotBit (width : Nat) (reverseOrder : Bool) (index : Nat) :
    (hotBit width reverseOrder index).toggled = (List.replicate width true).set
      (if reverseOrder then width - 1 - index else index) false := by
  rw [hotBit, Bits.toggled, List.map_set, Bits.zeros, List.map_replicate]
  rfl

theorem hotBit_ne_zeros {width index : Nat} (reverseOrder : Bool) (hindex : index < width) :
    hotBit width reverseOrder index ≠ Bits.zeros width := by
  intro hbits
  have hone : true ∈ hotBit width reverseOrder index :=
    List.mem_set (by rw [Bits.zeros_length]; split <;> omega) true
  rw [hbits] at hone
  exact Bool.false_ne_true (List.eq_of_mem_replicate hone).symm

namespace DefaultBinaryPathSelector

theorem selectEntries_eq {registerLength : Nat} (hpos : 0 < registerLength % 256)
    (hle : registerLength % 256 ≤ 32) (canSelectNone : Bool) (count pathId : Nat) :
    selectEntries registerLength canSelectNone count pathId =
      .ok ((List.range' pathId count).map fun path =>
        numberBits (registerLength % 256) (if canSelectNone then path else path - 1)) := by
  induction count generalizing pathId with
  | zero => rfl
  | succ count ih =>
    rw [selectEntries, Bits.ofUInt32_eq hpos hle, ih, List.range'_succ, List.map_cons]
    rfl

theorem selectEntries_rejects {registerLength : Nat}
    (hout : registerLength % 256 = 0 ∨ 32 < registerLength % 256) (canSelectNone : Bool)
    {count : Nat} (hcount : 0 < count) (pathId : Nat) (entries : List Bits) :
    selectEntries registerLength canSelectNone count pathId ≠ .ok entries := by
  intro hentries
  obtain ⟨count, rfl⟩ := Nat.exists_eq_succ_of_ne_zero (Nat.ne_of_gt hcount)
  obtain ⟨temp, htemp, -⟩ := bind_eq_ok.mp hentries
  exact Bits.ofUInt32_rejects hout _ temp htemp

end DefaultBinaryPathSelector

namespace DefaultOneHotPathSelector

/-- The offset that the loop sets once `index` paths have their entry. -/
def offsetOf (width : Nat) (reverseOrder : Bool) (index : Nat) : Nat :=
  if reverseOrder then pred32 (width - index) else index

theorem offsetOf_lt {width index : Nat} (reverseOrder : Bool) (hindex : index < width)
    (hwidth : width < uint32Size) :
    offsetOf width reverseOrder index = if reverseOrder then width - 1 - index else index := by
  unfold offsetOf
  split
  · rw [pred32_eq (by omega) (by omega)]
    omega
  · rfl

theorem offsetOf_succ {width index : Nat} (reverseOrder : Bool) (hindex : index < width)
    (hwidth : width < uint32Size) :
    (if reverseOrder then pred32 (offsetOf width reverseOrder index)
      else (offsetOf width reverseOrder index + 1) % uint32Size) =
      offsetOf width reverseOrder (index + 1) := by
  rw [offsetOf_lt reverseOrder hindex hwidth, offsetOf]
  split
  · congr 1
    omega
  · rw [Nat.mod_eq_of_lt (by omega)]

theorem offsetOf_end {width : Nat} (reverseOrder : Bool) (hwidth : width < uint32Size) :
    width ≤ offsetOf width reverseOrder width := by
  unfold offsetOf
  split
  · rw [Nat.sub_self, pred32, Nat.zero_add, Nat.mod_eq_of_lt (by unfold uint32Size; omega)]
    omega
  · exact Nat.le_refl _

/-- One round of the loop leaves no bit set behind. -/
theorem selectEntries_succ {width : Nat} (hwidth : width < uint32Size) (reverseOrder : Bool)
    (count : Nat) {index : Nat} (hindex : index < width) :
    selectEntries reverseOrder (count + 1) (Bits.zeros width) (offsetOf width reverseOrder index) =
      (selectEntries reverseOrder count (Bits.zeros width)
        (offsetOf width reverseOrder (index + 1))).map (hotBit width reverseOrder index :: ·) := by
  have hoffset := offsetOf_lt reverseOrder hindex hwidth
  have hin : offsetOf width reverseOrder index < width := by
    rw [hoffset]
    split <;> omega
  have hentry : (Bits.zeros width).setBit (offsetOf width reverseOrder index) =
      .ok (hotBit width reverseOrder index) := by
    rw [Bits.setBit_eq (by rwa [Bits.zeros_length]), hoffset, hotBit]
  have hcleared : (hotBit width reverseOrder index).clearBit (offsetOf width reverseOrder index) =
      .ok (Bits.zeros width) := by
    rw [Bits.clearBit_eq (by rwa [hotBit_length]), hoffset, hotBit, List.set_set]
    exact congrArg Except.ok List.set_replicate_self
  rw [selectEntries, hentry]
  simp only [bind, Except.bind, hcleared, offsetOf_succ reverseOrder hindex hwidth]
  rfl

theorem selectEntries_eq {width : Nat} (hwidth : width < uint32Size) (reverseOrder : Bool)
    (count : Nat) {index : Nat} (hcount : index + count ≤ width) :
    selectEntries reverseOrder count (Bits.zeros width) (offsetOf width reverseOrder index) =
      .ok ((List.range' index count).map (hotBit width reverseOrder)) := by
  induction count generalizing index with
  | zero => rfl
  | succ count ih =>
    rw [selectEntries_succ hwidth reverseOrder count (by omega), ih (by omega), List.range'_succ,
      List.map_cons]
    rfl

theorem selectEntries_rejects {width : Nat} (hwidth : width < uint32Size) (reverseOrder : Bool)
    (count : Nat) {index : Nat} (hindex : index ≤ width) (hcount : width < index + count)
    (entries : List Bits) :
    selectEntries reverseOrder count (Bits.zeros width) (offsetOf width reverseOrder index) ≠
      .ok entries := by
  intro hentries
  induction count generalizing index entries with
  | zero => omega
  | succ count ih =>
    by_cases hlast : index = width
    · subst hlast
      obtain ⟨entry, hentry, -⟩ := bind_eq_ok.mp hentries
      have hout := offsetOf_end reverseOrder hwidth
      exact Bits.setBit_rejects (by rwa [Bits.zeros_length]) entry hentry
    · rw [selectEntries_succ hwidth reverseOrder count (by omega)] at hentries
      obtain ⟨rest, hrest, -⟩ := map_eq_ok.mp hentries
      exact ih (by omega) (by omega) rest hrest

end DefaultOneHotPathSelector

end Mast
