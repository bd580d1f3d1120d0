import Mast.Scan.Selects

/-!
# Initial values of selector registers

The value that a register is created with to drive a default selector, and the paths that it selects: with `SelectsPath` a value is that of a path.
-/

namespace Mast

open BinaryVector (numberBits)
open Outcome

/-! ### Initial values -/

namespace DefaultBinaryPathSelector

def regWidthForPathCount (pathsCount : Nat) (canSelectNone : Bool) : Except Fault Nat :=
  if pathsCount = 0 then
    .error (.invalidArgument "A path selector with 0 path count is not valid")
  else if pathsCount = 1 ∧ canSelectNone = false then
    .error (.invalidArgument
      "A path selector with 1 path count is not valid when cannot select none")
  else
    .ok (Utility.minimalBitsForValue (if canSelectNone then pathsCount else pathsCount - 1))

def associatedRegisterInitialValue (pathsCount : Nat) (properties : SelectorProperty) :
    Except Fault Bits := do
  let regSize ← regWidthForPathCount pathsCount properties.canSelectNone
  Bits.filled regSize 0x00

end DefaultBinaryPathSelector

namespace DefaultOneHotPathSelector

def associatedRegisterInitialValue (pathsCount : Nat) (properties : SelectorProperty) :
    Except Fault Bits := do
  let value ← Bits.filled pathsCount (if properties.invertedBits then 0xFF else 0x00)
  if properties.startAtZero then return value
  else if properties.canSelectNone then return value
  else
    let bitOffset := if properties.reverseOrder then pred32 pathsCount else 0
    if properties.invertedBits then value.clearBit bitOffset else value.setBit bitOffset

end DefaultOneHotPathSelector

namespace DefaultNHotPathSelector

def associatedRegisterInitialValue (pathsCount : Nat) (properties : SelectorProperty) :
    Except Fault Bits :=
  DefaultOneHotPathSelector.associatedRegisterInitialValue pathsCount properties

end DefaultNHotPathSelector

namespace DefaultSelector

def associatedRegisterInitialValue : DefaultSelector → Nat → SelectorProperty → Except Fault Bits
  | .binary => DefaultBinaryPathSelector.associatedRegisterInitialValue
  | .oneHot => DefaultOneHotPathSelector.associatedRegisterInitialValue
  | .nHot => DefaultNHotPathSelector.associatedRegisterInitialValue

variable {kind : DefaultSelector} {properties : SelectorProperty}
  {reg width pathsCount path : Nat}

/-! ### Values of the paths -/

theorem code_zero (kind : DefaultSelector) (properties : SelectorProperty) (width : Nat) :
    kind.code properties width 0 = List.replicate width properties.invertedBits := by
  have hplain : kind.plainCode properties width 0 = Bits.zeros width := by
    by_cases hkind : kind = .binary
    · subst hkind
      rw [← numberBits_zero, plainCode]
      split <;> rfl
    · rw [plainCode_hot hkind, if_pos zeroEntries_pos]
  rw [code, hplain]
  cases properties.invertedBits with
  | false => rfl
  | true => exact List.map_replicate

/-- The value of no path is that of the first one. -/
def zeroIsFirst (kind : DefaultSelector) (properties : SelectorProperty) : Bool :=
  match kind with
  | .binary => !properties.canSelectNone
  | _ => properties.startAtZero

theorem zeroIsFirst_hot (hkind : kind ≠ .binary) :
    kind.zeroIsFirst properties = properties.startAtZero := by
  cases kind with
  | binary => exact absurd rfl hkind
  | oneHot => rfl
  | nHot => rfl

theorem code_one (hfirst : kind.zeroIsFirst properties = true) :
    kind.code properties width 1 = kind.code properties width 0 := by
  rw [code_eq_iff]
  by_cases hkind : kind = .binary
  · subst hkind
    have hnone : properties.canSelectNone = false := by simpa [zeroIsFirst] using hfirst
    simp only [plainCode, hnone, if_neg Bool.false_ne_true]
  · rw [zeroIsFirst_hot hkind] at hfirst
    rw [plainCode_hot hkind, plainCode_hot hkind, zeroEntries_hot hkind, hfirst]
    rfl

theorem Builds.code_ne_zero (hfirst : kind.zeroIsFirst properties = false)
    (hlength : kind.checkRegisterLength properties width pathsCount = .ok ())
    (hbuilds : kind.Builds properties width pathsCount) (hpath : 0 < path)
    (hle : path ≤ pathsCount) :
    kind.code properties width path ≠ kind.code properties width 0 := by
  intro hcode
  have hplain := code_eq_iff.mp hcode
  by_cases hkind : kind = .binary
  · subst hkind
    have hnone : properties.canSelectNone = true := by simpa [zeroIsFirst] using hfirst
    obtain ⟨-, hfits⟩ := checkRegisterLength_binary (by omega) hlength
    simp only [plainCode, hnone, if_true] at hplain hfits
    have hsame := BinaryVector.numberBits_injective (by omega) (by omega) hplain
    omega
  · rw [zeroIsFirst_hot hkind] at hfirst
    have hwidth := hbuilds.width_le hkind hlength
    have hone : kind.zeroEntries properties = 1 := by
      rw [zeroEntries_hot hkind, hfirst]
      rfl
    rw [plainCode_hot hkind, plainCode_hot hkind, hone, if_neg (by omega), if_pos (by omega)]
      at hplain
    exact hotBit_ne_zeros _ (by omega) hplain

theorem zipWith_keepOp_right (invertedBits : Bool) (value : Bits) :
    List.zipWith (PathSelector.keepOp invertedBits) value
      (List.replicate value.length invertedBits) = List.replicate value.length invertedBits := by
  induction value with
  | nil => rfl
  | cons bit value ih =>
    rw [List.length_cons, List.replicate_succ, List.zipWith_cons_cons, ih]
    congr 1
    cases invertedBits <;> cases bit <;> rfl

theorem zipWith_keepOp_left (invertedBits : Bool) (value : Bits) :
    List.zipWith (PathSelector.keepOp invertedBits) (List.replicate value.length invertedBits)
      value = List.replicate value.length invertedBits := by
  induction value with
  | nil => rfl
  | cons bit value ih =>
    rw [List.length_cons, List.replicate_succ, List.zipWith_cons_cons, ih]
    congr 1
    cases invertedBits <;> cases bit <;> rfl

def SelectsPath (kind : DefaultSelector) (properties : SelectorProperty)
    (reg width pathsCount : Nat) (value : Bits) : Prop :=
  ∃ path, 0 < path ∧ path ≤ pathsCount ∧
    (kind.selector properties reg width pathsCount).accepted value
      (kind.code properties width path) = true

theorem accepted_of_eq (hkind : kind ≠ .nHot) {value : Bits} :
    (kind.selector properties reg width pathsCount).accepted value
      (kind.code properties width path) = true ↔ value = kind.code properties width path :=
  PathSelector.accepted_iff fun h => hkind (selectorKind_eq_nHot.mp h)

theorem accepted_nHot (value selectValue : Bits) :
    (selector .nHot properties reg width pathsCount).accepted value selectValue =
      (List.zipWith (PathSelector.keepOp properties.invertedBits) value selectValue ==
        selectValue) :=
  if_pos rfl

theorem selectsPath_code (hpath : 0 < path) (hle : path ≤ pathsCount) :
    kind.SelectsPath properties reg width pathsCount (kind.code properties width path) := by
  refine ⟨path, hpath, hle, ?_⟩
  by_cases hkind : kind = .nHot
  · subst hkind
    have hself (a : Bool) : PathSelector.keepOp properties.invertedBits a a = a := by
      cases properties.invertedBits <;> cases a <;> rfl
    rw [accepted_nHot, List.zipWith_self]
    simp only [hself, List.map_id', beq_self_eq_true]
  · exact (accepted_of_eq hkind).mpr rfl

/-- With `StartAtZero` the first path of an N-hot selector is selected by any value. -/
theorem selectsPath_nHot_startAtZero (hstart : properties.startAtZero = true)
    (hpaths : 0 < pathsCount) {value : Bits} (hvalue : value.length = width) :
    SelectsPath .nHot properties reg width pathsCount value := by
  subst hvalue
  refine ⟨1, Nat.one_pos, hpaths, ?_⟩
  have hfirst : zeroIsFirst .nHot properties = true := hstart
  rw [code_one hfirst, code_zero, accepted_nHot]
  exact beq_iff_eq.mpr (zipWith_keepOp_right _ value)

/-- The value of no path selects none where it is kept for that. -/
theorem Builds.not_selectsPath_zero (hfirst : kind.zeroIsFirst properties = false)
    (hlength : kind.checkRegisterLength properties width pathsCount = .ok ())
    (hbuilds : kind.Builds properties width pathsCount) :
    ¬kind.SelectsPath properties reg width pathsCount (kind.code properties width 0) := by
  intro ⟨path, hpath, hle, haccepted⟩
  have hne := hbuilds.code_ne_zero hfirst hlength hpath hle
  by_cases hkind : kind = .nHot
  · subst hkind
    rw [accepted_nHot, beq_iff_eq] at haccepted
    have hcode := @code_length .nHot properties width path
    have hzip := zipWith_keepOp_left properties.invertedBits (code .nHot properties width path)
    rw [hcode, ← code_zero .nHot properties width] at hzip
    exact hne (haccepted.symm.trans hzip)
  · exact hne ((accepted_of_eq hkind).mp haccepted).symm

/-! ### What the initial value selects -/

theorem initialValue_binary {initialValue : Bits} (hcount : pathsCount < uint32Size)
    (hinitial : associatedRegisterInitialValue .binary pathsCount properties = .ok initialValue) :
    initialValue = Bits.zeros (Utility.minimalBitsForValue
        (if properties.canSelectNone then pathsCount else pathsCount - 1)) ∧
      (properties.canSelectNone = false → 1 < pathsCount) := by
  obtain ⟨regSize, hsize, hfilled⟩ := bind_eq_ok.mp hinitial
  unfold DefaultBinaryPathSelector.regWidthForPathCount at hsize
  split at hsize
  · cases hsize
  · rename_i hsome
    split at hsize
    · cases hsize
    · rename_i hsingle
      have hfew : regSize ≤ 32 := by
        rw [← Except.ok.inj hsize]
        refine Utility.minimalBits_le_32 ?_
        split <;> omega
      rw [Bits.filled_zeros (by unfold uint32Size; omega)] at hfilled
      refine ⟨(Except.ok.inj hfilled).symm.trans ?_, fun hnone => ?_⟩
      · rw [Except.ok.inj hsize]
      · by_contra hle
        exact hsingle ⟨by omega, hnone⟩

theorem initialValue_hot (hkind : kind ≠ .binary) {initialValue : Bits} (hpaths : 0 < pathsCount)
    (hcount : pathsCount < uint32Size)
    (hinitial : kind.associatedRegisterInitialValue pathsCount properties = .ok initialValue) :
    initialValue = kind.code properties pathsCount
      (if properties.startAtZero || properties.canSelectNone then 0 else 1) := by
  have hinitial : DefaultOneHotPathSelector.associatedRegisterInitialValue pathsCount properties =
      .ok initialValue := by
    cases kind with
    | binary => exact absurd rfl hkind
    | oneHot => exact hinitial
    | nHot => exact hinitial
  obtain ⟨value, hvalue, hinitial⟩ := bind_eq_ok.mp hinitial
  have hvectors := Bits.filled_within hcount hvalue
  have hfilled : value = kind.code properties pathsCount 0 := by
    rw [code_zero]
    cases hinverted : properties.invertedBits with
    | false =>
      rw [hinverted, if_neg Bool.false_ne_true, Bits.filled_zeros hvectors] at hvalue
      exact (Except.ok.inj hvalue).symm
    | true =>
      rw [hinverted, if_pos rfl, Bits.filled_ones hvectors] at hvalue
      exact (Except.ok.inj hvalue).symm
  cases hstart : properties.startAtZero with
  | true =>
    rw [hstart] at hinitial
    exact (Except.ok.inj hinitial).symm.trans hfilled
  | false =>
    cases hnone : properties.canSelectNone with
    | true =>
      rw [hstart, hnone] at hinitial
      exact (Except.ok.inj hinitial).symm.trans hfilled
    | false =>
      rw [hstart, hnone] at hinitial
      have hset : (if properties.invertedBits
          then value.clearBit (if properties.reverseOrder then pred32 pathsCount else 0)
          else value.setBit (if properties.reverseOrder then pred32 pathsCount else 0)) =
            .ok initialValue := hinitial
      have hbit : (if properties.reverseOrder then pred32 pathsCount else 0) =
          if properties.reverseOrder then pathsCount - 1 - 0 else 0 := by
        rw [pred32_eq hpaths hcount, Nat.sub_zero]
      have hin : (if properties.reverseOrder then pathsCount - 1 - 0 else 0) < pathsCount := by
        split <;> omega
      have hone : kind.plainCode properties pathsCount 1 =
          hotBit pathsCount properties.reverseOrder 0 := by
        rw [plainCode_hot hkind, zeroEntries_hot hkind, hstart]
        rfl
      rw [code_zero] at hfilled
      subst hfilled
      change initialValue = kind.code properties pathsCount 1
      rw [hbit] at hset
      rw [code, hone]
      cases hinverted : properties.invertedBits with
      | false =>
        rw [hinverted, if_neg Bool.false_ne_true,
          Bits.setBit_eq (by rwa [List.length_replicate])] at hset
        exact (Except.ok.inj hset).symm
      | true =>
        rw [hinverted, if_pos rfl, Bits.clearBit_eq (by rwa [List.length_replicate])] at hset
        rw [if_pos rfl, toggled_hotBit]
        exact (Except.ok.inj hset).symm

theorem ones_ne_zeros (hpos : 0 < width) : List.replicate width true ≠ Bits.zeros width := by
  obtain ⟨count, rfl⟩ := Nat.exists_eq_succ_of_ne_zero (Nat.ne_of_gt hpos)
  intro h
  cases List.head_eq_of_cons_eq h

theorem numberBits_ones (width : Nat) :
    numberBits width (2 ^ width - 1) = List.replicate width true := by
  refine List.eq_replicate_iff.mpr ⟨BinaryVector.numberBits_length _ _, fun bit hbit => ?_⟩
  obtain ⟨i, hi, rfl⟩ := List.mem_map.mp hbit
  have hlt := List.mem_range.mp hi
  rw [Nat.testBit_two_pow_sub_one]
  exact decide_eq_true (by omega)

/-- An inverted binary selector starts with a path selected if it has one for each value. -/
theorem selectsPath_zeros_iff (hnone : properties.canSelectNone = false)
    (hinverted : properties.invertedBits = true)
    (hlength : checkRegisterLength .binary properties width pathsCount = .ok ())
    (hpaths : 0 < pathsCount) :
    SelectsPath .binary properties reg width pathsCount (Bits.zeros width) ↔
      pathsCount = 2 ^ width := by
  obtain ⟨-, hfits⟩ := checkRegisterLength_binary hpaths hlength
  have hcode (path : Nat) : 
      code .binary properties width path = Bits.toggled (numberBits width (path - 1)) := by
    rw [code, hinverted, if_pos rfl, plainCode, hnone, if_neg Bool.false_ne_true]
  have hzeros : Bits.zeros width = Bits.toggled (numberBits width (2 ^ width - 1)) := by
    rw [numberBits_ones, Bits.toggled, List.map_replicate]
    rfl
  rw [hnone, if_neg Bool.false_ne_true] at hfits
  constructor
  · rintro ⟨path, hpath, hle, haccepted⟩
    have hvalue := (accepted_of_eq (by decide)).mp haccepted
    rw [hcode, hzeros] at hvalue
    have hlast := BinaryVector.numberBits_injective (by omega) (by omega)
      (Bits.toggled_injective hvalue)
    omega
  · intro hall
    refine ⟨pathsCount, hpaths, Nat.le_refl _, (accepted_of_eq (by decide)).mpr ?_⟩
    rw [hcode, hzeros, hall]

theorem minimalBits_eq {k : Nat} (hk : 0 < k) : Utility.minimalBitsForValue (2 ^ k - 1) = k := by
  have hpow : 2 ^ 1 ≤ 2 ^ k := Nat.pow_le_pow_right (by decide) hk
  have hle := Utility.minimalBits_le (show 0 < 2 ^ k - 1 by omega)
  have hlt := Utility.lt_minimalBits (2 ^ k - 1)
  have hmany : k ≤ Utility.minimalBitsForValue (2 ^ k - 1) :=
    (Nat.pow_le_pow_iff_right (by decide)).mp (show 2 ^ k ≤ 2 ^ _ by omega)
  have hfew : Utility.minimalBitsForValue (2 ^ k - 1) - 1 < k :=
    (Nat.pow_lt_pow_iff_right (by decide)).mp (show 2 ^ _ < 2 ^ k by omega)
  omega

/-- Without `CanSelectNone`, a path is selected from the start. -/
theorem selectsPath_initial_iff {initialValue : Bits} (hpaths : 0 < pathsCount)
    (hcount : pathsCount < uint32Size) (hnone : properties.canSelectNone = false)
    (hinitial : kind.associatedRegisterInitialValue pathsCount properties = .ok initialValue)
    (hlength : kind.checkRegisterLength properties initialValue.length pathsCount = .ok ()) :
    kind.SelectsPath properties reg initialValue.length pathsCount initialValue ↔
      (kind = .binary → properties.invertedBits = true → ∃ k, pathsCount = 2 ^ k) := by
  by_cases hkind : kind = .binary
  · subst hkind
    obtain ⟨hzeros, hmany⟩ := initialValue_binary hcount hinitial
    rw [hnone, if_neg Bool.false_ne_true] at hzeros
    rw [hzeros, Bits.zeros_length] at hlength ⊢
    cases hinverted : properties.invertedBits with
    | false =>
      have hfirst : zeroIsFirst .binary properties = true := by
        rw [zeroIsFirst, hnone]
        rfl
      refine iff_of_true ?_ nofun
      have hcode := @selectsPath_code .binary properties reg
        (Utility.minimalBitsForValue (pathsCount - 1)) pathsCount 1 Nat.one_pos hpaths
      rwa [code_one hfirst, code_zero, hinverted] at hcode
    | true =>
      rw [selectsPath_zeros_iff hnone hinverted hlength hpaths]
      constructor
      · intro hall _ _
        exact ⟨_, hall⟩
      · intro hpower
        obtain ⟨k, rfl⟩ := hpower rfl rfl
        have hk : 0 < k := by
          by_contra hzero
          have hone : k = 0 := by omega
          subst hone
          exact absurd (hmany hnone) (by decide)
        rw [minimalBits_eq hk]
  · have hvalue := initialValue_hot hkind hpaths hcount hinitial
    have hlen : initialValue.length = pathsCount := by rw [hvalue, code_length]
    refine iff_of_true ?_ fun h => absurd h hkind
    have hcode := @selectsPath_code kind properties reg pathsCount pathsCount 1 Nat.one_pos hpaths
    rw [hlen, hvalue]
    cases hstart : properties.startAtZero with
    | false =>
      rw [hnone]
      exact hcode
    | true =>
      rwa [code_one ((zeroIsFirst_hot hkind).trans hstart)] at hcode

end DefaultSelector

end Mast
