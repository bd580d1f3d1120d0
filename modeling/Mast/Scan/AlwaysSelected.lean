import Mast.Scan.InitialValue

/-!
# A selector that has to select a path

Without `CanSelectNone` a selector should have a path selected from the initial value of its register on, whatever is selected and deselected. With it, the initial value and `Select(0)` should leave no path. Both hold for some properties only, which are told apart by kind.
-/

namespace Mast

open Outcome

/-- What can be called on a selector and its register. -/
inductive SelectorCall
  | select (pathIdentifier : Nat)
  | deselect (pathIdentifier : Nat)
  | updateLastToSut

namespace SelectorCall

/-- The calls for the paths of a selector. -/
def InRange (pathsCount : Nat) : SelectorCall → Prop
  | select path => path ≤ pathsCount
  | deselect path => 0 < path ∧ path ≤ pathsCount
  | updateLastToSut => True

def after (p : PathSelector) (reg : Nat) (s : SystemModel) : SelectorCall → SystemModel
  | select path => (p.select path s).toOption.getD s
  | deselect path => (p.deselect path s).toOption.getD s
  | updateLastToSut => s.updateLastToSut reg

end SelectorCall

def PathSelector.afterCalls (p : PathSelector) (reg : Nat) (s : SystemModel)
    (calls : List SelectorCall) : SystemModel :=
  calls.foldl (SelectorCall.after p reg) s

/-- The register holds a value: it is what it sends next and what it sent last. -/
structure SystemModel.Holds (s : SystemModel) (reg : Nat) (value : Bits) (ordering : BitsOrdering) :
    Prop where
  hasWidth : (s.registers reg).HasWidth value.length
  ordering : (s.registers reg).bitsOrdering = ordering
  nextToSut : (s.registers reg).nextToSut = value
  lastToSut : (s.registers reg).lastToSut = value

namespace DefaultSelector

/-- Whether a path has to be selected is respected, from the initial value of the register on. -/
structure SelectionKept (p : PathSelector) (reg pathsCount : Nat) (initialValue : Bits)
    (ordering : BitsOrdering) : Prop where
  always (s : SystemModel) (calls : List SelectorCall) : p.canSelectNone = false →
    s.Holds reg initialValue ordering → (∀ call ∈ calls, call.InRange pathsCount) →
      (∃ path, 0 < path ∧ path ≤ pathsCount ∧
        p.isSelected (p.afterCalls reg s calls) path = .ok true) ∧
      ∃ path, 0 < path ∧ path ≤ pathsCount ∧
        p.isActive (p.afterCalls reg s calls) path = .ok true
  inactive (s : SystemModel) (path : Nat) : p.canSelectNone = true →
    s.Holds reg initialValue ordering → 0 < path → path ≤ pathsCount → p.isActive s path ≠ .ok true
  selectNone (s : SystemModel) : p.canSelectNone = true →
    (s.registers reg).HasWidth initialValue.length → (s.registers reg).bitsOrdering = ordering →
      ∃ s', p.select 0 s = .ok s' ∧
        ∀ path, 0 < path → path ≤ pathsCount → p.isSelected s' path ≠ .ok true
  code : p.canSelectNone = true → p.selectTable[0]? = some initialValue

/-- The properties for which it is: an inverted binary selector has to select a path and to use all its values, `StartAtZero` leaves no value for no path, and only `StartAtZero` keeps an N-hot selector from selecting none. -/
def Keeps (kind : DefaultSelector) (properties : SelectorProperty) (pathsCount : Nat) : Prop :=
  match kind with
  | .binary =>
    properties.invertedBits = true → properties.canSelectNone = false ∧ ∃ k, pathsCount = 2 ^ k
  | .oneHot => properties.canSelectNone = true → properties.startAtZero = false
  | .nHot => properties.startAtZero = !properties.canSelectNone

variable {kind : DefaultSelector} {properties : SelectorProperty}
  {reg width pathsCount path : Nat}

/-! ### What the calls select -/

section Calls

variable {s : SystemModel} {next last : Bits}

theorem selector_entry_deselect_lt (hin : path < pathsCount + kind.zeroEntries properties) :
    (kind.selector properties reg width pathsCount).entry
        (kind.selector properties reg width pathsCount).deselectTable path =
      .ok (kind.deselectCode properties width path) := by
  refine PathSelector.entry_eq (by rwa [selector_size]) ?_
  simp [selector, List.getElem?_range hin]

theorem selector_entry_deselect (hle : path ≤ pathsCount) :
    (kind.selector properties reg width pathsCount).entry
        (kind.selector properties reg width pathsCount).deselectTable path =
      .ok (kind.deselectCode properties width path) := by
  have hzero : 0 < kind.zeroEntries properties := zeroEntries_pos
  exact selector_entry_deselect_lt (by omega)

theorem deselectCode_length : (kind.deselectCode properties width path).length = width := by
  cases kind with
  | nHot => rw [deselectCode, Bits.toggled_length, code_length]
  | _ => exact List.length_replicate

theorem orFirstPath_selector (hnone : properties.canSelectNone = false) (hpaths : 0 < pathsCount)
    (value : Bits) :
    (kind.selector properties reg width pathsCount).orFirstPath value =
      .ok (if value = kind.code properties width 0 then kind.code properties width 1
        else value) := by
  obtain ⟨count, hcount⟩ : ∃ count, pathsCount + kind.zeroEntries properties = count + 2 := by
    have hzero : 0 < kind.zeroEntries properties := zeroEntries_pos
    exact ⟨pathsCount + kind.zeroEntries properties - 2, by omega⟩
  have htable : (kind.selector properties reg width pathsCount).selectTable =
      kind.code properties width 0 :: kind.code properties width 1 ::
        (List.range' 2 count).map (kind.code properties width) := by
    rw [selector, hcount, List.range_eq_range', List.range'_succ, List.range'_succ]
    rfl
  rw [PathSelector.orFirstPath, htable]
  exact if_neg (by rw [selector, hnone]; exact Bool.false_ne_true)

/-- Selecting any path but none keeps a path selected, and selecting none does except for an N-hot selector. -/
theorem selectsPath_selectedValue (hnone : properties.canSelectNone = false)
    (hpaths : 0 < pathsCount) (hle : path ≤ pathsCount) (hnext : next.length = width)
    (hstart : path = 0 → kind = .nHot → properties.startAtZero = true) :
    kind.SelectsPath properties reg width pathsCount
      (kind.selectedValue properties width next path) := by
  by_cases hzero : path = 0
  · subst hzero
    cases kind with
    | binary =>
      have hfirst : zeroIsFirst .binary properties = true := by
        rw [zeroIsFirst, hnone]
        rfl
      rw [selectedValue, ← code_one hfirst]
      exact selectsPath_code Nat.one_pos hpaths
    | oneHot =>
      rw [selectedValue, if_pos ⟨hnone, rfl⟩]
      exact selectsPath_code Nat.one_pos hpaths
    | nHot =>
      rw [selectedValue, if_pos rfl]
      exact selectsPath_nHot_startAtZero (hstart rfl rfl) hpaths (code_length width 0)
  · exact ⟨path, Nat.pos_of_ne_zero hzero, hle,
      accepted_selectedValue hnext (Nat.pos_of_ne_zero hzero)⟩

/-- Deselecting a path sends the first one, or throws, or with an N-hot selector sends some other value. -/
theorem deselect_selector (hpos : 0 < width) (hwidth : width < uint32Size)
    (hmux : s.Mux reg width next last) (hnone : properties.canSelectNone = false)
    (hpaths : 0 < pathsCount) (hle : path ≤ pathsCount) :
    (∃ s' sent, (kind.selector properties reg width pathsCount).deselect path s = .ok s' ∧
      s'.Mux reg width sent last ∧ (kind ≠ .nHot → sent = kind.code properties width 1)) ∨
      ∃ fault, (kind.selector properties reg width pathsCount).deselect path s = .error fault := by
  have hentry := @selector_entry_deselect kind properties reg width pathsCount path hle
  by_cases hkind : kind = .nHot
  · subst hkind
    have hfirst := @orFirstPath_selector .nHot properties reg width pathsCount hnone hpaths
      (List.zipWith (PathSelector.keepOp properties.invertedBits) next
        (deselectCode .nHot properties width path))
    have hsent : (if List.zipWith (PathSelector.keepOp properties.invertedBits) next
          (deselectCode .nHot properties width path) = code .nHot properties width 0
        then code .nHot properties width 1
        else List.zipWith (PathSelector.keepOp properties.invertedBits) next
          (deselectCode .nHot properties width path)).length = width := by
      split
      · exact code_length width 1
      · rw [List.length_zipWith, hmux.next_length, deselectCode_length, Nat.min_self]
    rcases PathSelector.deselect_nHot_mux rfl hpos hwidth hmux rfl hentry deselectCode_length hfirst
      hsent with ⟨s', hdeselect, hmux'⟩ | hthrows
    · exact .inl ⟨s', _, hdeselect, hmux', fun h => absurd rfl h⟩
    · exact .inr hthrows
  · have hvalue : kind.deselectCode properties width path = kind.code properties width 0 := by
      rw [code_zero]
      cases kind with
      | binary => rfl
      | oneHot => rfl
      | nHot => exact absurd rfl hkind
    have hfirst := @orFirstPath_selector kind properties reg width pathsCount hnone hpaths
      (kind.deselectCode properties width path)
    rw [if_pos hvalue] at hfirst
    obtain ⟨s', hdeselect, hmux'⟩ := PathSelector.deselect_mux rfl hpos hwidth hmux
      (fun h => hkind (selectorKind_eq_nHot.mp h)) hentry hfirst (code_length width 1)
    exact .inl ⟨s', _, hdeselect, hmux', fun _ => rfl⟩

/-- The register selects a path, with what it sends next and with what it sent last. -/
def Selecting (kind : DefaultSelector) (properties : SelectorProperty)
    (reg width pathsCount : Nat) (s : SystemModel) : Prop :=
  ∃ next last, s.Mux reg width next last ∧ kind.SelectsPath properties reg width pathsCount next ∧
    kind.SelectsPath properties reg width pathsCount last

/-- No call leaves the selector without a path. -/
theorem Selecting.after (hpos : 0 < width) (hwidth : width < uint32Size)
    (hnone : properties.canSelectNone = false) (hpaths : 0 < pathsCount)
    (hstart : kind = .nHot → properties.startAtZero = true)
    (hselecting : kind.Selecting properties reg width pathsCount s) {call : SelectorCall}
    (hcall : call.InRange pathsCount) :
    kind.Selecting properties reg width pathsCount
      (call.after (kind.selector properties reg width pathsCount) reg s) := by
  obtain ⟨next, last, hmux, hnext, hlast⟩ := hselecting
  cases call with
  | select path =>
    obtain ⟨s', hselect, hmux'⟩ := @select_selector kind properties s reg width pathsCount path next
      last hpos hwidth hmux hpaths hcall
    have hsent := @selectsPath_selectedValue kind properties reg width pathsCount path next hnone
      hpaths hcall hmux.next_length fun _ => hstart
    rw [SelectorCall.after, hselect]
    exact ⟨_, _, hmux', hsent, hlast⟩
  | deselect path =>
    rcases @deselect_selector kind properties reg width pathsCount path s next last hpos hwidth hmux
      hnone hpaths hcall.2 with ⟨s', sent, hdeselect, hmux', hsent⟩ | ⟨fault, hthrows⟩
    · have hselects : kind.SelectsPath properties reg width pathsCount sent := by
        by_cases hkind : kind = .nHot
        · subst hkind
          exact selectsPath_nHot_startAtZero (hstart rfl) hpaths hmux'.next_length
        · rw [hsent hkind]
          exact selectsPath_code Nat.one_pos hpaths
      rw [SelectorCall.after, hdeselect]
      exact ⟨_, _, hmux', hselects, hlast⟩
    · rw [SelectorCall.after, hthrows]
      exact ⟨next, last, hmux, hnext, hlast⟩
  | updateLastToSut => exact ⟨next, next, hmux.updateLastToSut, hnext, hnext⟩

theorem Selecting.afterCalls (hpos : 0 < width) (hwidth : width < uint32Size)
    (hnone : properties.canSelectNone = false) (hpaths : 0 < pathsCount)
    (hstart : kind = .nHot → properties.startAtZero = true)
    (hselecting : kind.Selecting properties reg width pathsCount s) {calls : List SelectorCall}
    (hcalls : ∀ call ∈ calls, call.InRange pathsCount) :
    kind.Selecting properties reg width pathsCount
      ((kind.selector properties reg width pathsCount).afterCalls reg s calls) :=
  List.foldlRecOn calls _ hselecting fun _ hs call hcall =>
    hs.after hpos hwidth hnone hpaths hstart (hcalls call hcall)

theorem exists_isSelected_iff (hpos : 0 < width) (hwidth : width < uint32Size)
    (hmux : s.Mux reg width next last) :
    (∃ path, 0 < path ∧ path ≤ pathsCount ∧
      (kind.selector properties reg width pathsCount).isSelected s path = .ok true) ↔
      kind.SelectsPath properties reg width pathsCount next := by
  refine exists_congr fun path => and_congr_right fun _ => and_congr_right fun hle => ?_
  rw [isSelected_selector hpos hwidth hmux hle, Except.ok.injEq]

theorem exists_isActive_iff (hpos : 0 < width) (hwidth : width < uint32Size)
    (hmux : s.Mux reg width next last) :
    (∃ path, 0 < path ∧ path ≤ pathsCount ∧
      (kind.selector properties reg width pathsCount).isActive s path = .ok true) ↔
      kind.SelectsPath properties reg width pathsCount last := by
  refine exists_congr fun path => and_congr_right fun _ => and_congr_right fun hle => ?_
  rw [isActive_selector hpos hwidth hmux hle, Except.ok.injEq]

end Calls

/-! ### When it is kept -/

section Kept

variable {p : PathSelector} {initialValue : Bits} {ordering : BitsOrdering}

theorem createdModel_holds (reg : Nat) (value : Bits) (ordering : BitsOrdering) :
    (createdModel value ordering).Holds reg value ordering where
  hasWidth := ⟨rfl, rfl, rfl⟩
  ordering := rfl
  nextToSut := rfl
  lastToSut := rfl

/-- A register of several bits numbered up cannot be read by its selector. -/
theorem SelectionKept.ordering_eq (hpos : 0 < initialValue.length)
    (hwidth : initialValue.length < uint32Size)
    (hregs : p.muxRegisters = .ofRegister reg initialValue.length)
    (hkept : SelectionKept p reg pathsCount initialValue ordering) :
    ordering = .upto → initialValue.length = 1 := by
  intro hupto
  by_contra hmany
  have hread (next : Bits) :
      p.muxRegisters.nextToSut (createdModel initialValue ordering) ≠ .ok next := by
    rw [hregs]
    exact VirtualRegister.getView_whole_upto (show _ = BitsOrdering.upto from hupto) (by omega)
      hwidth rfl next
  cases hnone : p.canSelectNone with
  | true =>
    obtain ⟨s', hselect, -⟩ := hkept.selectNone (createdModel initialValue ordering) hnone
      ⟨rfl, rfl, rfl⟩ rfl
    obtain ⟨next, hnext⟩ := PathSelector.select_reads hselect
    exact hread next hnext
  | false =>
    obtain ⟨⟨path, -, -, hselected⟩, -⟩ := hkept.always (createdModel initialValue ordering) []
      hnone (createdModel_holds reg initialValue ordering) nofun
    obtain ⟨value, -, hselected⟩ := bind_eq_ok.mp hselected
    obtain ⟨next, hnext, -⟩ := bind_eq_ok.mp hselected
    exact hread next hnext

theorem holds_mux {s : SystemModel} (hordering : ordering = .upto → initialValue.length = 1)
    (hholds : s.Holds reg initialValue ordering) :
    s.Mux reg initialValue.length initialValue initialValue :=
  ⟨hholds.hasWidth, fun hupto => hordering (hholds.ordering.symm.trans hupto), hholds.nextToSut,
    hholds.lastToSut⟩

theorem selectionKept_cannot_iff (hpaths : 0 < pathsCount) (hcount : pathsCount < uint32Size)
    (hnone : properties.canSelectNone = false)
    (hinitial : kind.associatedRegisterInitialValue pathsCount properties = .ok initialValue)
    (hlength : kind.checkRegisterLength properties initialValue.length pathsCount = .ok ())
    (hbuilds : kind.Builds properties initialValue.length pathsCount)
    (hordering : ordering = .upto → initialValue.length = 1) :
    SelectionKept (kind.selector properties reg initialValue.length pathsCount) reg pathsCount
        initialValue ordering ↔
      (kind = .binary → properties.invertedBits = true → ∃ k, pathsCount = 2 ^ k) ∧
        (kind = .nHot → properties.startAtZero = true) := by
  have hpos := hbuilds.width_pos hpaths hlength
  have hwidth : initialValue.length < uint32Size := by
    have hvectors := hbuilds.vectors
    omega
  have hcreated := createdModel_holds reg initialValue ordering
  have hmux := holds_mux hordering hcreated
  have hstarts := @selectsPath_initial_iff kind properties reg pathsCount initialValue hpaths hcount
    hnone hinitial hlength
  constructor
  · intro hkept
    obtain ⟨-, hactive⟩ := hkept.always _ [] hnone hcreated nofun
    refine ⟨hstarts.mp ((exists_isActive_iff hpos hwidth hmux).mp hactive), fun hkind => ?_⟩
    subst hkind
    -- selecting no path is not guarded
    obtain ⟨s', hselect, hmux'⟩ := @select_selector .nHot properties _ reg initialValue.length
      pathsCount 0 _ _ hpos hwidth hmux hpaths (Nat.zero_le _)
    obtain ⟨hselected, -⟩ := hkept.always _ [.select 0] hnone hcreated fun call hcall => by
      rw [List.mem_singleton.mp hcall]
      exact Nat.zero_le _
    have hafter : (selector .nHot properties reg initialValue.length pathsCount).afterCalls reg
        (createdModel initialValue ordering) [.select 0] = s' := by
      rw [PathSelector.afterCalls, List.foldl_cons, List.foldl_nil, SelectorCall.after, hselect]
      rfl
    rw [hafter, exists_isSelected_iff hpos hwidth hmux'] at hselected
    by_contra hstart
    have hfirst : zeroIsFirst .nHot properties = false := Bool.eq_false_iff.mpr hstart
    exact hbuilds.not_selectsPath_zero hfirst hlength hselected
  · rintro ⟨hpower, hstart⟩
    have hcan : properties.canSelectNone ≠ true := by rw [hnone]; exact Bool.false_ne_true
    refine ⟨fun s calls _ hholds hcalls => ?_, fun s path h => absurd h hcan,
      fun s h => absurd h hcan, fun h => absurd h hcan⟩
    have hmux := holds_mux hordering hholds
    obtain ⟨next, last, hmux', hnext, hlast⟩ := Selecting.afterCalls hpos hwidth hnone hpaths
      hstart ⟨_, _, hmux, hstarts.mpr hpower, hstarts.mpr hpower⟩ hcalls
    exact ⟨(exists_isSelected_iff hpos hwidth hmux').mpr hnext,
      (exists_isActive_iff hpos hwidth hmux').mpr hlast⟩

theorem selectionKept_can_iff (hpaths : 0 < pathsCount) (hnone : properties.canSelectNone = true)
    (hlength : kind.checkRegisterLength properties initialValue.length pathsCount = .ok ())
    (hbuilds : kind.Builds properties initialValue.length pathsCount)
    (hordering : ordering = .upto → initialValue.length = 1) :
    SelectionKept (kind.selector properties reg initialValue.length pathsCount) reg pathsCount
        initialValue ordering ↔
      initialValue = kind.code properties initialValue.length 0 ∧
        kind.zeroIsFirst properties = false := by
  have hpos := hbuilds.width_pos hpaths hlength
  have hwidth : initialValue.length < uint32Size := by
    have hvectors := hbuilds.vectors
    omega
  have hcreated := createdModel_holds reg initialValue ordering
  have hmux := holds_mux hordering hcreated
  have hentry : (kind.selector properties reg initialValue.length pathsCount).selectTable[0]? =
      some (kind.code properties initialValue.length 0) := by
    have hsize : 0 < pathsCount + kind.zeroEntries properties := by omega
    simp [selector, List.getElem?_range hsize]
  constructor
  · intro hkept
    have hinitialCode := hkept.code hnone
    rw [hentry] at hinitialCode
    have hcode := (Option.some.inj hinitialCode).symm
    refine ⟨hcode, ?_⟩
    by_contra hfirst
    have hone := @selectsPath_code kind properties reg initialValue.length pathsCount 1 Nat.one_pos
      hpaths
    rw [code_one (by simpa using hfirst), ← hcode] at hone
    obtain ⟨path, hpath, hle, hactive⟩ := (exists_isActive_iff hpos hwidth hmux).mpr hone
    exact hkept.inactive _ path hnone hcreated hpath hle hactive
  · rintro ⟨hcode, hfirst⟩
    have hzero := @Builds.not_selectsPath_zero kind properties reg _ pathsCount hfirst hlength hbuilds
    refine ⟨fun s calls h => ?_, fun s path _ hholds hpath hle hactive => ?_,
      fun s _ hhas hordered => ?_, fun _ => hentry.trans (congrArg some hcode.symm)⟩
    · exact absurd (hnone.symm.trans h) (by decide)
    · have hselects := (exists_isActive_iff hpos hwidth (holds_mux hordering hholds)).mp
        ⟨path, hpath, hle, hactive⟩
      rw [← hcode] at hzero
      exact hzero hselects
    · have hmux : s.Mux reg initialValue.length (s.registers reg).nextToSut
          (s.registers reg).lastToSut :=
        ⟨hhas, fun hupto => hordering (hordered.symm.trans hupto), rfl, rfl⟩
      obtain ⟨s', hselect, hmux'⟩ := @select_selector kind properties s reg initialValue.length
        pathsCount 0 _ _ hpos hwidth hmux hpaths (Nat.zero_le _)
      have hsent : kind.selectedValue properties initialValue.length (s.registers reg).nextToSut 0 =
          kind.code properties initialValue.length 0 := by
        cases kind with
        | binary => rfl
        | oneHot =>
          have hcan : ¬(properties.canSelectNone = false ∧ (0 : Nat) = 0) := by simp [hnone]
          rw [selectedValue, if_neg hcan]
        | nHot => rfl
      rw [hsent] at hmux'
      refine ⟨s', hselect, fun path hpath hle hselected => hzero ?_⟩
      exact (exists_isSelected_iff hpos hwidth hmux').mp ⟨path, hpath, hle, hselected⟩

theorem create_checks {width : Nat} (hcreate : kind.create reg width pathsCount properties = .ok p) :
    kind.checkRegisterLength properties width pathsCount = .ok () := by
  cases kind <;>
  · obtain ⟨table, htable, -⟩ := bind_eq_ok.mp hcreate
    obtain ⟨u, hcheck, -⟩ := bind_eq_ok.mp htable
    exact hcheck

/-- A selector over a register of the initial value respects whether a path has to be selected exactly for some properties. -/
theorem selectionKept_iff (hpaths : 0 < pathsCount) (hcount : pathsCount < uint32Size)
    (hinitial : kind.associatedRegisterInitialValue pathsCount properties = .ok initialValue)
    (hcreate : kind.create reg initialValue.length pathsCount properties = .ok p) :
    SelectionKept p reg pathsCount initialValue ordering ↔
      kind.Keeps properties pathsCount ∧ (ordering = .upto → initialValue.length = 1) := by
  have hlength := create_checks hcreate
  obtain ⟨hpos, hregs⟩ := create_muxRegisters hcreate
  have hnarrow : kind = .binary → initialValue.length ≤ 32 := by
    intro hkind
    subst hkind
    rw [(initialValue_binary hcount hinitial).1, Bits.zeros_length]
    refine Utility.minimalBits_le_32 ?_
    split <;> omega
  have hwidth : initialValue.length < uint32Size := by
    by_cases hkind : kind = .binary
    · have hfew := hnarrow hkind
      unfold uint32Size
      omega
    · rwa [initialValue_hot hkind hpaths hcount hinitial, code_length]
  have hbuilds := Builds.of_create hwidth hnarrow hlength hcreate
  obtain rfl : p = kind.selector properties reg initialValue.length pathsCount :=
    Except.ok.inj (hcreate.symm.trans (hbuilds.create_eq hpaths hlength))
  rw [and_comm]
  refine (and_iff_right_of_imp fun hkept => hkept.ordering_eq hpos hwidth hregs).symm.trans
    (and_congr_right fun hordering => ?_)
  cases hnone : properties.canSelectNone with
  | false =>
    rw [selectionKept_cannot_iff hpaths hcount hnone hinitial hlength hbuilds hordering]
    cases kind <;> simp [Keeps, hnone]
  | true =>
    rw [selectionKept_can_iff hpaths hnone hlength hbuilds hordering, code_zero]
    by_cases hkind : kind = .binary
    · subst hkind
      have hzeros := (initialValue_binary hcount hinitial).1
      have hself : initialValue = Bits.zeros initialValue.length := by
        rw [hzeros, Bits.zeros_length]
      cases hinverted : properties.invertedBits with
      | false => exact iff_of_true ⟨hself, by rw [zeroIsFirst, hnone]; rfl⟩ (by simp [Keeps, hinverted])
      | true =>
        exact iff_of_false (fun h => ones_ne_zeros hpos (h.1.symm.trans hself))
          (by simp [Keeps, hinverted, hnone])
    · have hcode := initialValue_hot hkind hpaths hcount hinitial
      rw [hnone, Bool.or_true, if_pos rfl, code_zero] at hcode
      have hself : initialValue = List.replicate initialValue.length properties.invertedBits := by
        rw [hcode, List.length_replicate]
      rw [zeroIsFirst_hot hkind, and_iff_right hself]
      cases kind with
      | binary => exact absurd rfl hkind
      | oneHot => simp [Keeps, hnone]
      | nHot => simp [Keeps, hnone]

theorem selectionKept_two_paths :
    ∃ p, create .oneHot 0 2 2 ⟨false, false, false, false⟩ = .ok p ∧
      SelectionKept p 0 2 [true, false] .downto := by
  have hinitial : associatedRegisterInitialValue .oneHot 2 ⟨false, false, false, false⟩ =
      .ok [true, false] := rfl
  have hcreate : create .oneHot 0 [true, false].length 2 ⟨false, false, false, false⟩ =
      .ok (selector .oneHot ⟨false, false, false, false⟩ 0 2 2) := rfl
  exact ⟨_, hcreate, (selectionKept_iff (by decide) (by decide) hinitial hcreate).mpr
    ⟨fun _ => rfl, nofun⟩⟩

/-- An N-hot selector that has to select a path selects none when asked to. -/
theorem selectionKept_nHot :
    ¬∀ (kind : DefaultSelector) (properties : SelectorProperty) (reg pathsCount : Nat)
      (initialValue : Bits) (p : PathSelector) (ordering : BitsOrdering), 0 < pathsCount →
        pathsCount < uint32Size →
        kind.associatedRegisterInitialValue pathsCount properties = .ok initialValue →
        kind.create reg initialValue.length pathsCount properties = .ok p →
          SelectionKept p reg pathsCount initialValue ordering := by
  intro hall
  have hkept := hall .nHot ⟨false, false, false, false⟩ 0 2 [true, false]
    (selector .nHot ⟨false, false, false, false⟩ 0 2 2) .downto (by decide) (by decide) rfl rfl
  obtain ⟨⟨path, hpath, hle, hselected⟩, -⟩ := hkept.always (createdModel [true, false] .downto)
    [.select 0] rfl (createdModel_holds 0 _ _) fun call hcall => by
      rw [List.mem_singleton.mp hcall]
      exact Nat.zero_le _
  interval_cases path
  · cases hselected
  · cases hselected

end Kept

end DefaultSelector

end Mast
