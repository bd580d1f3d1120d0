import Mast.Ssak.Authentication

/-!
# The driver of the secured segments

`SSAKplugin` remembers which S2IBs have been opened, one bit for each, eight in a byte. A configuration that has been accepted is copied byte by byte, and the bits of its last byte that stand for no S2IB are masked out. The mask is made of the number of S2IBs modulo 8, so it is empty when that number is a multiple of 8, and the last eight S2IBs are forgotten.
-/

namespace Mast

namespace Ssak

open BitPacking

/-- `nbCharFor`: the bytes that hold some bits. -/
def nbCharFor (i : Nat) : Nat :=
  let res := i / 8
  if res * 8 < i then res + 1 else res

/-- `i2s`, which takes a signed integer. -/
def i2s (nb : Nat) : String := toString (BitVec.ofNat 32 nb).toInt

/-- `SSAKplugin`, without the processor it computes responses with. -/
structure SsakPlugin where
  nbS2ib : Nat
  interfaceSize : Nat
  selected : Vector Byte (nbCharFor nbS2ib)
  nbS2ib_le : nbS2ib ≤ interfaceSize
  deriving DecidableEq

/-- An access to a buffer that is not checked. -/
def readByte (config : List Byte) (i : Nat) : Except Fault Byte :=
  match config[i]? with
  | some byte => .ok byte
  | none => .error .undefinedBehaviour

def writeByte {size : Nat} (selected : Vector Byte size) (i : Nat) (byte : Byte) :
    Except Fault (Vector Byte size) :=
  if h : i < size then .ok (selected.set i byte) else .error .undefinedBehaviour

/-- The first loop of `setSelected`. -/
def lastByteMask (nbBitsLastByte : Nat) : Byte :=
  (List.range nbBitsLastByte).foldl (fun mask i => mask ||| 1 <<< i) 0

/-- The second loop of `setSelected`. -/
def copyBytes {size : Nat} (config : List Byte) (selected : Vector Byte size) (count : Nat) :
    Except Fault (Vector Byte size) :=
  (List.range count).foldlM (fun selected i => do writeByte selected i (← readByte config i))
    selected

namespace SsakPlugin

/-- The constructor, for a processor that encrypts `encrSize` bits. -/
def construct (encrSize nbS2ib interfaceSize : Nat) : Except Fault SsakPlugin :=
  let interfaceSize := if interfaceSize = 0 then encrSize else interfaceSize
  if h : nbS2ib ≤ interfaceSize then
    .ok ⟨nbS2ib, interfaceSize, Vector.replicate (nbCharFor nbS2ib) 0, h⟩
  else
    .error (.runtimeError ("Number of S2IB(" ++ i2s nbS2ib ++
      ") must be smaller than interface size(" ++ i2s interfaceSize ++ ")"))

def setSelected (plugin : SsakPlugin) (configVector : List Byte) : Except Fault SsakPlugin := do
  let nbByte := nbCharFor plugin.nbS2ib
  let mask := lastByteMask (plugin.nbS2ib % 8)
  let selected ← copyBytes configVector plugin.selected (nbByte - 1)
  let last ← readByte configVector (nbByte - 1)
  let selected ← writeByte selected (nbByte - 1) (last &&& mask)
  pure { plugin with selected }

def deselect (plugin : SsakPlugin) : Except Fault SsakPlugin :=
  plugin.setSelected (List.replicate (nbCharFor plugin.interfaceSize) 0)

/-- `isSelected()`: some S2IB is opened. -/
def isAnySelected (plugin : SsakPlugin) : Bool := plugin.selected.toList.any (· ≠ 0)

/-- `isSelected(iS2IB)`. -/
def isSelected (plugin : SsakPlugin) (iS2ib : Nat) : Except Fault Bool :=
  if iS2ib ≥ plugin.nbS2ib then
    .error (.runtimeError ("S²IB number \x27" ++ i2s iS2ib ++
      "\x27 is out of range (func bool SSAKplugin::isSelected(unsigned))"))
  else
    match plugin.selected[iS2ib / 8]? with
    | some byte => .ok (byte &&& 1 <<< (iS2ib % 8) ≠ 0)
    | none => .error .undefinedBehaviour

/-- Calls of `setSelected` one after another. -/
def setAll (plugin : SsakPlugin) (configs : List (List Byte)) : Except Fault SsakPlugin :=
  configs.foldlM setSelected plugin

end SsakPlugin

/-! ### Bytes and bits -/

theorem nbCharFor_bounds (i : Nat) : i ≤ 8 * nbCharFor i ∧ 8 * nbCharFor i < i + 8 := by
  unfold nbCharFor
  dsimp only
  split <;> omega

theorem readByte_eq {config : List Byte} {i : Nat} (hi : i < config.length) :
    readByte config i = .ok (config.getD i 0) := by
  rw [readByte, List.getD_eq_getElem?_getD, List.getElem?_eq_getElem hi]
  rfl

theorem copyBytes_eq {size count : Nat} {config : List Byte} (selected : Vector Byte size)
    (hlong : count ≤ config.length) (hcount : count ≤ size) :
    copyBytes config selected count =
      .ok (Vector.ofFn fun i : Fin size =>
        if i.val < count then config.getD i 0 else selected[i]) := by
  induction count with
  | zero =>
    have hsame : selected = Vector.ofFn fun i : Fin size =>
        if i.val < 0 then config.getD i 0 else selected[i] := by
      ext i hi
      simp
    exact congrArg Except.ok hsame
  | succ count ih =>
    have hwritten : (Vector.ofFn fun i : Fin size =>
        if i.val < count then config.getD i 0 else selected[i]).set count (config.getD count 0) =
        Vector.ofFn fun i : Fin size =>
          if i.val < count + 1 then config.getD i 0 else selected[i] := by
      apply Vector.ext
      intro i hi
      by_cases heq : i = count
      · subst heq
        simp
      · have hless : i < count + 1 ↔ i < count := by omega
        rw [Vector.getElem_set_ne _ _ (Ne.symm heq), Vector.getElem_ofFn, Vector.getElem_ofFn]
        simp only [hless]
    rw [copyBytes, List.range_succ, List.foldlM_append]
    change (copyBytes config selected count >>= fun selected => _) = _
    rw [ih (by omega) (by omega)]
    change (do writeByte _ count (← readByte config count)) >>= pure = _
    rw [readByte_eq (by omega)]
    change writeByte _ count _ >>= pure = _
    rw [writeByte, dif_pos (by omega), hwritten]
    rfl

theorem lastByteMask_getLsbD : ∀ count < 8, ∀ i < 8,
    (lastByteMask count).getLsbD i = decide (i < count) := by
  decide

/-- The test of a bit with a mask that has one. -/
theorem and_shift_ne_zero {i : Nat} (hi : i < 8) (byte : Byte) :
    decide (byte &&& 1 <<< i ≠ 0) = byte.getLsbD i := by
  revert byte
  interval_cases i <;> decide +kernel

theorem ne_zero_iff_bit (byte : Byte) : byte ≠ 0 ↔ ∃ i < 8, byte.getLsbD i = true := by
  revert byte
  decide +kernel

/-! ### What is remembered -/

def requested (config : List Byte) (iS2ib : Nat) : Bool :=
  (config.getD (iS2ib / 8) 0).getLsbD (iS2ib % 8)

/-- The bits that the mask of the last byte leaves. -/
def isKept (nbS2ib iS2ib : Nat) : Bool :=
  decide (iS2ib / 8 + 1 < nbCharFor nbS2ib) || decide (iS2ib % 8 < nbS2ib % 8)

def stored (nbS2ib : Nat) (config : List Byte) : Vector Byte (nbCharFor nbS2ib) :=
  Vector.ofFn fun i =>
    if i.val + 1 < nbCharFor nbS2ib then config.getD i 0
    else config.getD i 0 &&& lastByteMask (nbS2ib % 8)

theorem stored_bit {nbS2ib iS2ib : Nat} (config : List Byte)
    (hbyte : iS2ib / 8 < nbCharFor nbS2ib) :
    (stored nbS2ib config)[iS2ib / 8].getLsbD (iS2ib % 8) =
      (requested config iS2ib && isKept nbS2ib iS2ib) := by
  rw [stored, Vector.getElem_ofFn, isKept, requested]
  by_cases hfront : iS2ib / 8 + 1 < nbCharFor nbS2ib
  · simp [hfront]
  · rw [if_neg hfront, BitVec.getLsbD_and,
      lastByteMask_getLsbD _ (Nat.mod_lt _ (by decide)) _ (Nat.mod_lt _ (by decide))]
    simp [hfront]

theorem lt_of_isKept {nbS2ib iS2ib : Nat} (hbyte : iS2ib / 8 < nbCharFor nbS2ib)
    (hkept : isKept nbS2ib iS2ib = true) : iS2ib < nbS2ib := by
  have hbounds := nbCharFor_bounds nbS2ib
  simp only [isKept, Bool.or_eq_true, decide_eq_true_eq] at hkept
  omega

/-- A bit is lost in the last byte when the number of S2IBs is a multiple of 8. -/
theorem isKept_iff {nbS2ib iS2ib : Nat} (hin : iS2ib < nbS2ib) :
    isKept nbS2ib iS2ib = true ↔ nbS2ib % 8 ≠ 0 ∨ iS2ib / 8 + 1 < nbCharFor nbS2ib := by
  have hbounds := nbCharFor_bounds nbS2ib
  simp only [isKept, Bool.or_eq_true, decide_eq_true_eq]
  omega

/-- The bits beyond the S2IBs have no effect. -/
theorem stored_congr {nbS2ib : Nat} {config config' : List Byte}
    (hsame : ∀ iS2ib < nbS2ib, requested config iS2ib = requested config' iS2ib) :
    stored nbS2ib config = stored nbS2ib config' := by
  apply Vector.ext
  intro index hindex
  apply BitVec.eq_of_getLsbD_eq
  intro bit hbit
  have hdiv : (8 * index + bit) / 8 = index := by omega
  have hmod : (8 * index + bit) % 8 = bit := by omega
  have hleft := @stored_bit nbS2ib (8 * index + bit) config (by omega)
  have hright := @stored_bit nbS2ib (8 * index + bit) config' (by omega)
  simp only [hdiv, hmod] at hleft hright
  rw [hleft, hright]
  cases hkept : isKept nbS2ib (8 * index + bit)
  · rw [Bool.and_false, Bool.and_false]
  · rw [hsame _ (lt_of_isKept (by omega) hkept)]

namespace SsakPlugin

variable {plugin : SsakPlugin} {config : List Byte}

theorem setSelected_eq (hpos : 1 ≤ plugin.nbS2ib)
    (hlong : nbCharFor plugin.nbS2ib ≤ config.length) :
    plugin.setSelected config = .ok { plugin with selected := stored plugin.nbS2ib config } := by
  have hbounds := nbCharFor_bounds plugin.nbS2ib
  have hcopied := copyBytes_eq plugin.selected
    (show nbCharFor plugin.nbS2ib - 1 ≤ config.length by omega) (Nat.sub_le _ _)
  have hlast : readByte config (nbCharFor plugin.nbS2ib - 1) = _ := readByte_eq (by omega)
  rw [setSelected, hcopied, hlast]
  change (writeByte _ _ _ >>= fun selected => _) = _
  rw [writeByte, dif_pos (by omega)]
  change Except.ok { plugin with selected := _ } = _
  congr 2
  apply Vector.ext
  intro i hi
  rw [stored, Vector.getElem_ofFn]
  by_cases heq : i = nbCharFor plugin.nbS2ib - 1
  · subst heq
    have hend : ¬nbCharFor plugin.nbS2ib - 1 + 1 < nbCharFor plugin.nbS2ib := by omega
    rw [Vector.getElem_set_self, if_neg hend]
  · have hfront : i < nbCharFor plugin.nbS2ib - 1 := by omega
    have hnext : i + 1 < nbCharFor plugin.nbS2ib := by omega
    rw [Vector.getElem_set_ne _ _ (Ne.symm heq), Vector.getElem_ofFn, if_pos hfront, if_pos hnext]

theorem isSelected_stored {iS2ib : Nat} (hin : iS2ib < plugin.nbS2ib) :
    { plugin with selected := stored plugin.nbS2ib config }.isSelected iS2ib =
      .ok (requested config iS2ib && isKept plugin.nbS2ib iS2ib) := by
  have hbounds := nbCharFor_bounds plugin.nbS2ib
  have hbyte : iS2ib / 8 < nbCharFor plugin.nbS2ib := by omega
  have hget : (stored plugin.nbS2ib config)[iS2ib / 8]? =
      some (stored plugin.nbS2ib config)[iS2ib / 8] :=
    Vector.getElem?_eq_getElem hbyte
  rw [isSelected, if_neg (Nat.not_le_of_lt hin)]
  simp only [hget]
  rw [and_shift_ne_zero (Nat.mod_lt _ (by decide)), stored_bit]

theorem isAnySelected_stored :
    { plugin with selected := stored plugin.nbS2ib config }.isAnySelected = true ↔
      ∃ iS2ib < plugin.nbS2ib, requested config iS2ib = true ∧
        isKept plugin.nbS2ib iS2ib = true := by
  have hbounds := nbCharFor_bounds plugin.nbS2ib
  simp only [isAnySelected, List.any_eq_true, Vector.mem_toList_iff, decide_eq_true_eq]
  constructor
  · rintro ⟨byte, hmem, hbyte⟩
    obtain ⟨index, hindex, rfl⟩ := Vector.mem_iff_getElem.mp hmem
    obtain ⟨bit, hbit, hset⟩ := (ne_zero_iff_bit _).mp hbyte
    have hdiv : (8 * index + bit) / 8 = index := by omega
    have hmod : (8 * index + bit) % 8 = bit := by omega
    have hstored := @stored_bit plugin.nbS2ib (8 * index + bit) config (by omega)
    simp only [hdiv, hmod, hset] at hstored
    obtain ⟨hrequested, hkept⟩ := Bool.and_eq_true_iff.mp hstored.symm
    exact ⟨_, lt_of_isKept (by omega) hkept, hrequested, hkept⟩
  · rintro ⟨iS2ib, hin, hrequested, hkept⟩
    have hbyte : iS2ib / 8 < nbCharFor plugin.nbS2ib := by omega
    refine ⟨_, Vector.getElem_mem hbyte, (ne_zero_iff_bit _).mpr ⟨iS2ib % 8, by omega, ?_⟩⟩
    rw [stored_bit, hrequested, hkept, Bool.true_and]

/-- After some configurations, only the last one counts. -/
theorem setAll_eq (hpos : 1 ≤ plugin.nbS2ib) {configs : List (List Byte)} {last : List Byte}
    (hlong : ∀ config ∈ configs ++ [last], nbCharFor plugin.nbS2ib ≤ config.length) :
    plugin.setAll (configs ++ [last]) =
      .ok { plugin with selected := stored plugin.nbS2ib last } := by
  induction configs generalizing plugin with
  | nil =>
    rw [List.nil_append, setAll, List.foldlM_cons,
      setSelected_eq hpos (hlong last List.mem_cons_self)]
    rfl
  | cons config configs ih =>
    rw [List.cons_append, setAll, List.foldlM_cons,
      setSelected_eq hpos (hlong config List.mem_cons_self)]
    exact ih hpos fun other hother => hlong other (List.mem_cons_of_mem _ hother)

theorem deselect_eq (hpos : 1 ≤ plugin.nbS2ib) :
    plugin.deselect = .ok { plugin with
      selected := stored plugin.nbS2ib (List.replicate (nbCharFor plugin.interfaceSize) 0) } := by
  apply setSelected_eq hpos
  have hle := plugin.nbS2ib_le
  have hbounds := nbCharFor_bounds plugin.nbS2ib
  have hinterface := nbCharFor_bounds plugin.interfaceSize
  rw [List.length_replicate]
  omega

theorem requested_replicate_zero (count iS2ib : Nat) :
    requested (List.replicate count 0) iS2ib = false := by
  rw [requested, List.getD_eq_getElem?_getD, List.getElem?_replicate]
  split <;> exact BitVec.getLsbD_zero

theorem stored_replicate_zero (nbS2ib count : Nat) :
    (stored nbS2ib (List.replicate count 0)).toList = List.replicate (nbCharFor nbS2ib) 0 := by
  have hbyte (i : Nat) : (List.replicate count (0 : Byte)).getD i 0 = 0 := by
    rw [List.getD_eq_getElem?_getD, List.getElem?_replicate]
    split <;> rfl
  apply List.eq_replicate_of_mem ?_ |>.trans
  · rw [Vector.length_toList]
  · intro byte hmem
    obtain ⟨i, hi, rfl⟩ := Vector.mem_iff_getElem.mp (Vector.mem_toList_iff.mp hmem)
    have hmasked : (0 : Byte) &&& lastByteMask (nbS2ib % 8) = 0 := BitVec.zero_and
    rw [stored, Vector.getElem_ofFn, hbyte, hmasked, ite_self]

/-- What closing the access does with the driver's bytes in the path selector. -/
theorem closeSsak_deselects (hpos : 1 ≤ plugin.nbS2ib) {s s' : State} {deselected : SsakPlugin}
    (hselected : s.selected = plugin.selected.toList)
    (hdeselect : plugin.deselect = .ok deselected)
    (hclose : Selector.closeSsak.run s = .ok () s') :
    s'.selected = deselected.selected.toList := by
  rw [deselect_eq hpos] at hdeselect
  obtain rfl := Except.ok.inj hdeselect
  have hstate : s'.selected = s.selected.map fun _ => 0 := by
    cases hclose
    rfl
  rw [hstate, hselected, stored_replicate_zero, List.map_const', Vector.length_toList]

/-! ### Exactness -/

/-- The S2IBs that a configuration asks for are the ones that are selected. -/
structure Remembers (plugin : SsakPlugin) (config : List Byte) : Prop where
  each : ∀ iS2ib < plugin.nbS2ib, plugin.isSelected iS2ib = .ok (requested config iS2ib)
  any : plugin.isAnySelected = true ↔ ∃ iS2ib < plugin.nbS2ib, requested config iS2ib = true

structure SelectsNone (plugin : SsakPlugin) : Prop where
  each : ∀ iS2ib < plugin.nbS2ib, plugin.isSelected iS2ib = .ok false
  any : plugin.isAnySelected = false

/-- After the configurations the last one is remembered, whatever its bits beyond the S2IBs are, until it is deselected. -/
def RemembersExactly (plugin : SsakPlugin) (configs : List (List Byte)) (last : List Byte) : Prop :=
  ∃ plugin', plugin.setAll (configs ++ [last]) = .ok plugin' ∧ plugin'.nbS2ib = plugin.nbS2ib ∧
    plugin'.Remembers last ∧
    (∀ config : List Byte, nbCharFor plugin.nbS2ib ≤ config.length →
      (∀ iS2ib < plugin.nbS2ib, requested config iS2ib = requested last iS2ib) →
      plugin.setAll (configs ++ [config]) = .ok plugin') ∧
    ∃ deselected, plugin'.deselect = .ok deselected ∧ deselected.nbS2ib = plugin.nbS2ib ∧
      deselected.SelectsNone

theorem selectsNone_stored (count : Nat) :
    SelectsNone { plugin with selected := stored plugin.nbS2ib (List.replicate count 0) } where
  each iS2ib hin := by
    rw [isSelected_stored hin, requested_replicate_zero, Bool.false_and]
  any := by
    rw [← Bool.not_eq_true, isAnySelected_stored]
    rintro ⟨iS2ib, -, hrequested, -⟩
    rw [requested_replicate_zero] at hrequested
    cases hrequested

/-- A configuration is remembered when no bit that it asks for is masked out. -/
theorem remembers_stored_iff :
    { plugin with selected := stored plugin.nbS2ib config }.Remembers config ↔
      ∀ iS2ib < plugin.nbS2ib, requested config iS2ib = true →
        isKept plugin.nbS2ib iS2ib = true := by
  constructor
  · intro hremembers iS2ib hin hrequested
    have heach := hremembers.each iS2ib hin
    rw [isSelected_stored hin, hrequested, Bool.true_and] at heach
    exact Except.ok.inj heach
  · intro hkept
    refine ⟨fun iS2ib hin => ?_, ?_⟩
    · have hkept := hkept iS2ib hin
      rw [isSelected_stored hin]
      cases hrequested : requested config iS2ib
      · rfl
      · rw [hkept hrequested, Bool.true_and]
    · rw [isAnySelected_stored]
      constructor
      · rintro ⟨iS2ib, hin, hrequested, -⟩
        exact ⟨iS2ib, hin, hrequested⟩
      · rintro ⟨iS2ib, hin, hrequested⟩
        exact ⟨iS2ib, hin, hrequested, hkept iS2ib hin hrequested⟩

/-- What the mask leaves of a configuration is what it asks for, unless its last byte is lost. -/
theorem kept_iff (hpos : 1 ≤ plugin.nbS2ib) :
    (∀ iS2ib < plugin.nbS2ib, requested config iS2ib = true →
      isKept plugin.nbS2ib iS2ib = true) ↔
      (plugin.nbS2ib % 8 = 0 → config.getD (nbCharFor plugin.nbS2ib - 1) 0 = 0) := by
  have hbounds := nbCharFor_bounds plugin.nbS2ib
  constructor
  · intro hkept haligned
    by_contra hbyte
    obtain ⟨bit, hbit, hset⟩ := (ne_zero_iff_bit _).mp hbyte
    have hin : 8 * (nbCharFor plugin.nbS2ib - 1) + bit < plugin.nbS2ib := by omega
    have hdiv : (8 * (nbCharFor plugin.nbS2ib - 1) + bit) / 8 = nbCharFor plugin.nbS2ib - 1 := by
      omega
    have hmod : (8 * (nbCharFor plugin.nbS2ib - 1) + bit) % 8 = bit := by omega
    have hrequested : requested config (8 * (nbCharFor plugin.nbS2ib - 1) + bit) = true := by
      rw [requested, hdiv, hmod, hset]
    have hnext := (isKept_iff hin).mp (hkept _ hin hrequested)
    omega
  · intro hlast iS2ib hin hrequested
    apply (isKept_iff hin).mpr
    by_contra hlost
    rw [not_or, not_not] at hlost
    have hindex : iS2ib / 8 = nbCharFor plugin.nbS2ib - 1 := by omega
    rw [requested, hindex, hlast hlost.1] at hrequested
    exact absurd hrequested (by simp)

/-- The S2IBs are remembered if their number is not a multiple of 8, or if the configuration asks for none of the last eight. -/
theorem remembersExactly_iff (hpos : 1 ≤ plugin.nbS2ib) {configs : List (List Byte)}
    {last : List Byte}
    (hlong : ∀ config ∈ configs ++ [last], nbCharFor plugin.nbS2ib ≤ config.length) :
    plugin.RemembersExactly configs last ↔
      (plugin.nbS2ib % 8 = 0 → last.getD (nbCharFor plugin.nbS2ib - 1) 0 = 0) := by
  have hset := setAll_eq hpos hlong
  rw [← kept_iff hpos, ← remembers_stored_iff]
  constructor
  · rintro ⟨plugin', hset', -, hremembers, -⟩
    obtain rfl := Except.ok.inj (hset.symm.trans hset')
    exact hremembers
  · intro hremembers
    refine ⟨_, hset, rfl, hremembers, fun config hconfig hsame => ?_, _,
      deselect_eq hpos, rfl, selectsNone_stored _⟩
    rw [setAll_eq hpos, stored_congr hsame]
    intro other hother
    rcases List.mem_append.mp hother with hother | hother
    · exact hlong other (List.mem_append_left _ hother)
    · rwa [List.mem_singleton.mp hother]

theorem remembersExactly_five : RemembersExactly
    ⟨5, 128, Vector.replicate (nbCharFor 5) 0, by decide⟩ [[0xFF]] [0x15] :=
  (remembersExactly_iff (by decide) (by decide)).mpr (by decide)

theorem not_remembersExactly : ∃ plugin, construct 128 8 0 = .ok plugin ∧
    ¬plugin.RemembersExactly [] [0x01] := by
  refine ⟨⟨8, 128, Vector.replicate (nbCharFor 8) 0, by decide⟩, by decide, ?_⟩
  rintro ⟨plugin, hset, -, hremembers, -⟩
  have hforgotten : setAll ⟨8, 128, Vector.replicate (nbCharFor 8) 0, by decide⟩ [[0x01]] =
      .ok ⟨8, 128, Vector.replicate (nbCharFor 8) 0, by decide⟩ := by
    decide
  obtain rfl := Except.ok.inj (hforgotten.symm.trans hset)
  have hfirst := hremembers.each 0 (by decide)
  exact absurd hfirst (by decide)

end SsakPlugin

end Ssak

end Mast
