import Mathlib.Data.Set.Card
import Mast.Scan.AlwaysSelected

/-!
# The paths of an N-hot selector

An N-hot selector has a bit of its register for each path. Selecting a path marks its bit and deselecting it clears the bit again, so that the calls for one path leave the selection of the others alone. Two things stand apart: with `StartAtZero` the first path has no bit and is always selected, and a selector that has to select a path takes the first one instead of none, or throws when that one has no bit. `LeavesAlone` says for which values of the register neither shows.
-/

namespace Mast

open Outcome

/-! ### Masks

Combining a list with a mask that holds a unit everywhere but at one position changes that position only. -/

section Masks

variable {α : Type} {op : α → α → α} {unit mark result : α}

theorem zipWith_replicate_unit (hunit : ∀ a, op a unit = a) (l : List α) :
    List.zipWith op l (List.replicate l.length unit) = l := by
  induction l with
  | nil => rfl
  | cons a l ih => rw [List.length_cons, List.replicate_succ, List.zipWith_cons_cons, hunit, ih]

theorem zipWith_mark (hunit : ∀ a, op a unit = a) (hmark : ∀ a, op a mark = result) (l : List α)
    (offset : Nat) :
    List.zipWith op l ((List.replicate l.length unit).set offset mark) = l.set offset result := by
  induction l generalizing offset with
  | nil => rfl
  | cons a l ih =>
    rw [List.length_cons, List.replicate_succ]
    cases offset with
    | zero =>
      rw [List.set_cons_zero, List.set_cons_zero, List.zipWith_cons_cons, hmark,
        zipWith_replicate_unit hunit]
    | succ offset =>
      rw [List.set_cons_succ, List.set_cons_succ, List.zipWith_cons_cons, hunit, ih]

theorem zipWith_replicate_absorb (hunit : ∀ a, op a unit = unit) (l : List α) :
    List.zipWith op l (List.replicate l.length unit) = List.replicate l.length unit := by
  induction l with
  | nil => rfl
  | cons a l ih => rw [List.length_cons, List.replicate_succ, List.zipWith_cons_cons, hunit, ih]

/-- A mask that absorbs everywhere but at one position reads that position. -/
theorem zipWith_read (hunit : ∀ a, op a unit = unit) (hmark : ∀ a, op a mark = a) {l : List α}
    {offset : Nat} {a : α} (ha : l[offset]? = some a) :
    List.zipWith op l ((List.replicate l.length unit).set offset mark) =
      (List.replicate l.length unit).set offset a := by
  induction l generalizing offset with
  | nil => cases ha
  | cons head l ih =>
    rw [List.length_cons, List.replicate_succ]
    cases offset with
    | zero =>
      obtain rfl := Option.some.inj ha
      rw [List.set_cons_zero, List.set_cons_zero, List.zipWith_cons_cons, hmark,
        zipWith_replicate_absorb hunit]
    | succ offset =>
      rw [List.set_cons_succ, List.set_cons_succ, List.zipWith_cons_cons, hunit, ih ha]

end Masks

namespace PathSelector

theorem selectOp_unit (invertedBits bit : Bool) : selectOp invertedBits bit invertedBits = bit := by
  cases invertedBits <;> cases bit <;> rfl

theorem selectOp_mark (invertedBits bit : Bool) :
    selectOp invertedBits bit (!invertedBits) = !invertedBits := by
  cases invertedBits <;> cases bit <;> rfl

theorem keepOp_unit (invertedBits bit : Bool) : keepOp invertedBits bit (!invertedBits) = bit := by
  cases invertedBits <;> cases bit <;> rfl

theorem keepOp_mark (invertedBits bit : Bool) :
    keepOp invertedBits bit invertedBits = invertedBits := by
  cases invertedBits <;> cases bit <;> rfl

theorem isSelected_out {p : PathSelector} {path : Nat} (hout : path ≥ p.selectTable.length)
    (s : SystemModel) :
    p.isSelected s path = .error (.outOfRange ("pathIdentifier must be < " ++
      toString p.selectTable.length ++ ", got: " ++ toString path)) := by
  simp only [isSelected, entry, if_pos hout, bind, Except.bind]

theorem select_out {p : PathSelector} (hkind : p.kind = .nHot) {path : Nat}
    (hout : path ≥ p.selectTable.length) (s : SystemModel) :
    ∃ fault, p.select path s = .error fault := by
  unfold select
  rw [hkind]
  simp only [entry, if_pos hout, bind, Except.bind]
  exact ⟨_, rfl⟩

theorem orFirstPath_length {p : PathSelector} {width : Nat} {value sent : Bits}
    (htable : ∀ entry ∈ p.selectTable, entry.length = width) (hvalue : value.length = width)
    (hfirst : p.orFirstPath value = .ok sent) : sent.length = width := by
  unfold orFirstPath at hfirst
  by_cases hnone : p.canSelectNone = true
  · rw [if_pos hnone] at hfirst
    rwa [← Except.ok.inj hfirst]
  · rw [if_neg hnone] at hfirst
    rcases hentries : p.selectTable with _ | ⟨noPath, _ | ⟨firstPath, rest⟩⟩
    · rw [hentries] at hfirst
      cases hfirst
    · simp only [hentries] at hfirst
      by_cases hclosed : value = noPath
      · rw [if_pos hclosed] at hfirst
        cases hfirst
      · rw [if_neg hclosed] at hfirst
        rwa [← Except.ok.inj hfirst]
    · rw [hentries] at hfirst htable
      rw [← Except.ok.inj hfirst]
      split
      · exact htable firstPath (List.mem_cons_of_mem _ List.mem_cons_self)
      · exact hvalue

/-- Deselecting reads the register, keeps some of its bits and sends what is left. -/
theorem deselect_sends {p : PathSelector} (hkind : p.kind = .nHot) {path : Nat}
    {s s' : SystemModel} (hdeselect : p.deselect path s = .ok s') :
    ∃ next kept sent : Bits, p.muxRegisters.nextToSut s = .ok next ∧ kept.length = next.length ∧
      p.orFirstPath kept = .ok sent ∧ p.steer sent s = .ok s' := by
  have hcombine {op : Bool → Bool → Bool} {bits rhs kept : Bits}
      (h : combine op bits rhs = .ok kept) : kept.length = bits.length := by
    unfold combine at h
    by_cases hlength : rhs.length = bits.length
    · rw [if_neg (not_not.mpr hlength)] at h
      rw [← Except.ok.inj h, List.length_zipWith, hlength, Nat.min_self]
    · rw [if_pos hlength] at h
      cases h
  obtain ⟨mask, -, h⟩ := bind_eq_ok.mp hdeselect
  rw [hkind] at h
  obtain ⟨next, hnext, h⟩ := bind_eq_ok.mp h
  obtain ⟨kept, hkept, h⟩ := bind_eq_ok.mp h
  obtain ⟨sent, hsent, h⟩ := bind_eq_ok.mp h
  refine ⟨next, kept, sent, hnext, ?_, hsent, ?_⟩
  · unfold keepMasked at hkept
    by_cases hinverted : p.invertedBits = true
    · rw [if_pos hinverted] at hkept
      exact hcombine hkept
    · rw [if_neg hinverted] at hkept
      exact hcombine hkept
  · by_cases hclosed : p.canSelectNone = false ∧ some sent = p.selectTable[0]?
    · rw [if_pos hclosed] at h
      cases h
    · rwa [if_neg hclosed] at h

def activeCount (p : PathSelector) (s : SystemModel) : Except Fault Nat :=
  (List.range' 1 (p.selectTable.length - 1)).foldlM (fun count pathId => do
    if ← p.isActive s pathId then return count + 1 else return count) 0

theorem foldlM_count {active : Nat → Except Fault Bool} {accepted : Nat → Bool} {paths : List Nat}
    (hactive : ∀ path ∈ paths, active path = .ok (accepted path)) (count : Nat) :
    paths.foldlM (fun count path => do
        if ← active path then return count + 1 else return count) count =
      .ok (count + paths.countP accepted) := by
  induction paths generalizing count with
  | nil => rfl
  | cons path paths ih =>
    have hrest (other : Nat) (hother : other ∈ paths) := hactive other (List.mem_cons_of_mem _ hother)
    rw [List.foldlM_cons, hactive path List.mem_cons_self, List.countP_cons]
    cases haccepted : accepted path with
    | true =>
      refine (ih hrest (count + 1)).trans (congrArg Except.ok ?_)
      rw [if_pos rfl]
      omega
    | false => exact ih hrest count

/-- When every path can be read, `ActiveCount` is the number of the active ones. -/
theorem activeCount_eq {p : PathSelector} {s : SystemModel} {accepted : Nat → Bool}
    (hactive : ∀ path, path < p.selectTable.length → p.isActive s path = .ok (accepted path)) :
    p.activeCount s = .ok {path | 0 < path ∧ path < p.selectTable.length ∧
      p.isActive s path = .ok true}.ncard := by
  have hread (path : Nat) (hpath : path ∈ List.range' 1 (p.selectTable.length - 1)) :
      p.isActive s path = .ok (accepted path) := by
    obtain ⟨hfirst, hlast⟩ := List.mem_range'_1.mp hpath
    exact hactive path (by omega)
  have hset : {path | 0 < path ∧ path < p.selectTable.length ∧ p.isActive s path = .ok true} =
      ↑((List.range' 1 (p.selectTable.length - 1)).filter accepted).toFinset := by
    ext path
    rw [Finset.mem_coe, List.mem_toFinset, List.mem_filter, List.mem_range'_1, Set.mem_ofPred_eq]
    constructor
    · rintro ⟨hpos, hin, htrue⟩
      rw [hactive path hin] at htrue
      exact ⟨⟨hpos, by omega⟩, Except.ok.inj htrue⟩
    · rintro ⟨⟨hpos, hin⟩, htrue⟩
      have hlt : path < p.selectTable.length := by omega
      exact ⟨hpos, hlt, by rw [hactive path hlt, htrue]⟩
  have hnodup : ((List.range' 1 (p.selectTable.length - 1)).filter accepted).Nodup :=
    List.Nodup.filter _ List.nodup_range'
  rw [hset, Set.ncard_coe_finset, List.toFinset_card_of_nodup hnodup, ← List.countP_eq_length_filter,
    activeCount, foldlM_count hread, Nat.zero_add]

theorem activeCount_noPath {p : PathSelector} {s : SystemModel} (hnone : p.selectTable.length ≤ 1) :
    p.activeCount s = .ok {path | 0 < path ∧ path < p.selectTable.length ∧
      p.isActive s path = .ok true}.ncard := by
  have hset : {path | 0 < path ∧ path < p.selectTable.length ∧ p.isActive s path = .ok true} = ∅ := by
    ext path
    simp only [Set.mem_ofPred_eq, Set.mem_empty_iff_false, iff_false]
    omega
  rw [hset, Set.ncard_empty, activeCount, Nat.sub_eq_zero_of_le hnone]
  rfl

end PathSelector

namespace DefaultSelector

variable {properties : SelectorProperty} {reg width pathsCount path other : Nat}
  {next last : Bits}

/-! ### The bit of a path -/

def hotOffset (properties : SelectorProperty) (width path : Nat) : Nat :=
  if properties.reverseOrder then width - 1 - (path - zeroEntries .nHot properties)
  else path - zeroEntries .nHot properties

def withBit (properties : SelectorProperty) (width path : Nat) (bit : Bool) (next : Bits) : Bits :=
  if path < zeroEntries .nHot properties then next else next.set (hotOffset properties width path) bit

/-- The bit of a path is the one that selects it; a path without a bit is always selected. -/
def marked (properties : SelectorProperty) (width path : Nat) (next : Bits) : Bool :=
  decide (path < zeroEntries .nHot properties) ||
    next[hotOffset properties width path]? == some (!properties.invertedBits)

theorem code_nHot (width path : Nat) :
    code .nHot properties width path = withBit properties width path (!properties.invertedBits)
      (List.replicate width properties.invertedBits) := by
  rw [code, plainCode_hot (by decide), withBit]
  cases properties.invertedBits with
  | false =>
    rw [if_neg Bool.false_ne_true]
    rfl
  | true =>
    rw [if_pos rfl]
    split
    · exact List.map_replicate
    · exact toggled_hotBit width _ _

theorem deselectCode_nHot (width path : Nat) :
    deselectCode .nHot properties width path = withBit properties width path properties.invertedBits
      (List.replicate width (!properties.invertedBits)) := by
  rw [deselectCode, code_nHot, withBit, withBit]
  split
  · exact List.map_replicate
  · rw [Bits.toggled, List.map_set, List.map_replicate, Bool.not_not]

theorem hotOffset_lt (hle : pathsCount ≤ width) (hfirst : zeroEntries .nHot properties ≤ path)
    (hin : path < pathsCount + zeroEntries .nHot properties) :
    hotOffset properties width path < width := by
  unfold hotOffset
  split <;> omega

theorem hotOffset_ne (hle : pathsCount ≤ width) (hfirst : zeroEntries .nHot properties ≤ path)
    (hin : path < pathsCount + zeroEntries .nHot properties)
    (hfirst' : zeroEntries .nHot properties ≤ other)
    (hin' : other < pathsCount + zeroEntries .nHot properties) (hne : other ≠ path) :
    hotOffset properties width path ≠ hotOffset properties width other := by
  unfold hotOffset
  split <;> omega

@[simp] theorem withBit_length (bit : Bool) (next : Bits) :
    (withBit properties width path bit next).length = next.length := by
  unfold withBit
  split
  · rfl
  · exact List.length_set

/-- Replacing the bit of a path leaves the others as they are. -/
theorem marked_withBit_other (hle : pathsCount ≤ width)
    (hin : path < pathsCount + zeroEntries .nHot properties)
    (hin' : other < pathsCount + zeroEntries .nHot properties) (hne : other ≠ path) (bit : Bool)
    (next : Bits) :
    marked properties width other (withBit properties width path bit next) =
      marked properties width other next := by
  unfold withBit marked
  by_cases hfirst : path < zeroEntries .nHot properties
  · rw [if_pos hfirst]
  · by_cases hfirst' : other < zeroEntries .nHot properties
    · rw [decide_eq_true hfirst', Bool.true_or, Bool.true_or]
    · rw [if_neg hfirst, List.getElem?_set_ne
        (hotOffset_ne hle (by omega) hin (by omega) hin' hne)]

theorem marked_withBit_self (hle : pathsCount ≤ width)
    (hfirst : zeroEntries .nHot properties ≤ path)
    (hin : path < pathsCount + zeroEntries .nHot properties) (bit : Bool) (hnext : next.length = width) :
    marked properties width path (withBit properties width path bit next) =
      (bit == !properties.invertedBits) := by
  have hoffset : hotOffset properties width path < next.length := by
    rw [hnext]
    exact hotOffset_lt hle hfirst hin
  rw [marked, withBit, if_neg (by omega), decide_eq_false (by omega), Bool.false_or,
    List.getElem?_set_self hoffset]
  rfl

theorem marked_replicate (hle : pathsCount ≤ width) (hfirst : zeroEntries .nHot properties ≤ path)
    (hin : path < pathsCount + zeroEntries .nHot properties) :
    marked properties width path (List.replicate width properties.invertedBits) = false := by
  rw [marked, decide_eq_false (by omega), Bool.false_or,
    List.getElem?_replicate_of_lt (hotOffset_lt hle hfirst hin)]
  cases properties.invertedBits <;> rfl

theorem select_withBit (hnext : next.length = width) :
    List.zipWith (PathSelector.selectOp properties.invertedBits) next
        (code .nHot properties width path) =
      withBit properties width path (!properties.invertedBits) next := by
  have hunit := PathSelector.selectOp_unit properties.invertedBits
  have hmark := PathSelector.selectOp_mark properties.invertedBits
  subst hnext
  rw [code_nHot, withBit, withBit]
  split
  · exact zipWith_replicate_unit hunit next
  · exact zipWith_mark hunit hmark next _

theorem deselect_withBit (hnext : next.length = width) :
    List.zipWith (PathSelector.keepOp properties.invertedBits) next
        (deselectCode .nHot properties width path) =
      withBit properties width path properties.invertedBits next := by
  have hunit := PathSelector.keepOp_unit properties.invertedBits
  have hmark := PathSelector.keepOp_mark properties.invertedBits
  subst hnext
  rw [deselectCode_nHot, withBit, withBit]
  split
  · exact zipWith_replicate_unit hunit next
  · exact zipWith_mark hunit hmark next _

theorem accepted_marked (hle : pathsCount ≤ width)
    (hin : path < pathsCount + zeroEntries .nHot properties) (hnext : next.length = width) :
    (selector .nHot properties reg width pathsCount).accepted next
        (code .nHot properties width path) = marked properties width path next := by
  have hunit := PathSelector.keepOp_mark properties.invertedBits
  have hmark := PathSelector.keepOp_unit properties.invertedBits
  rw [accepted_nHot, code_nHot, withBit, marked]
  subst hnext
  by_cases hfirst : path < zeroEntries .nHot properties
  · rw [if_pos hfirst, zipWith_replicate_absorb hunit, decide_eq_true hfirst, Bool.true_or,
      beq_self_eq_true]
  · have hoffset := hotOffset_lt hle (by omega) hin
    have hbit := List.getElem?_eq_getElem hoffset
    rw [if_neg hfirst, zipWith_read hunit hmark hbit, decide_eq_false hfirst, Bool.false_or, hbit,
      Bool.eq_iff_iff, beq_iff_eq, beq_iff_eq]
    constructor
    · intro hset
      have hread := congrArg (fun bits : Bits => bits[hotOffset properties next.length path]?) hset
      simpa only [List.getElem?_set_self, List.length_replicate, hoffset] using hread
    · intro hsame
      rw [Option.some.inj hsame]

/-! ### The calls for a path -/

section Calls

variable {s s' : SystemModel} {next' last' : Bits} (hpos : 0 < width) (hwidth : width < uint32Size)
  (hle : pathsCount ≤ width) (hmux : s.Mux reg width next last)
include hpos hwidth hle hmux

theorem isSelected_nHot (hin : path < pathsCount + zeroEntries .nHot properties) :
    (selector .nHot properties reg width pathsCount).isSelected s path =
      .ok (marked properties width path next) := by
  rw [← @accepted_marked properties reg width pathsCount path next hle hin hmux.next_length]
  exact PathSelector.isSelected_mux rfl hpos hwidth hmux (selector_entry_lt hin)
    (code_length width path)

theorem isActive_nHot (hin : path < pathsCount + zeroEntries .nHot properties) :
    (selector .nHot properties reg width pathsCount).isActive s path =
      .ok (marked properties width path last) := by
  rw [← @accepted_marked properties reg width pathsCount path last hle hin hmux.last_length]
  exact PathSelector.isActive_mux rfl hpos hwidth hmux (selector_entry_lt hin)
    (code_length width path)

/-- Two states select a path alike when their registers have the same bit for it; a path that the selector does not have is rejected in both. -/
theorem isSelected_congr (hmux' : s'.Mux reg width next' last')
    (hsame : path < pathsCount + zeroEntries .nHot properties →
      marked properties width path next' = marked properties width path next) :
    (selector .nHot properties reg width pathsCount).isSelected s' path =
      (selector .nHot properties reg width pathsCount).isSelected s path := by
  by_cases hin : path < pathsCount + zeroEntries .nHot properties
  · rw [isSelected_nHot hpos hwidth hle hmux' hin, isSelected_nHot hpos hwidth hle hmux hin,
      hsame hin]
  · have hout : path ≥ (selector .nHot properties reg width pathsCount).selectTable.length := by
      rw [selector_size]
      omega
    rw [PathSelector.isSelected_out hout, PathSelector.isSelected_out hout]

omit hle hmux in
theorem isActive_congr (hmux : s.Mux reg width next last) (hmux' : s'.Mux reg width next' last) :
    (selector .nHot properties reg width pathsCount).isActive s' path =
      (selector .nHot properties reg width pathsCount).isActive s path := by
  have hregs : (selector .nHot properties reg width pathsCount).muxRegisters =
    .ofRegister reg width := rfl
  rw [PathSelector.isActive, PathSelector.isActive, hregs,
    VirtualRegister.lastToSut_whole hmux' hpos hwidth,
    VirtualRegister.lastToSut_whole hmux hpos hwidth]

omit hle in
theorem select_nHot (hpath : 0 < path) (hin : path < pathsCount + zeroEntries .nHot properties) :
    ∃ s', (selector .nHot properties reg width pathsCount).select path s = .ok s' ∧
      s'.Mux reg width (withBit properties width path (!properties.invertedBits) next) last := by
  obtain ⟨s', hselect, hmux'⟩ := PathSelector.select_nHot_mux
    (p := selector .nHot properties reg width pathsCount) rfl hpos hwidth hmux rfl
    (selector_entry_lt hin) (code_length width path)
  rw [if_neg (by omega)] at hmux'
  refine ⟨s', hselect, ?_⟩
  rw [← select_withBit hmux.next_length]
  exact hmux'

omit hle in
theorem deselect_mux_last
    (hdeselect : (selector .nHot properties reg width pathsCount).deselect path s = .ok s') :
    ∃ next', s'.Mux reg width next' last := by
  have hregs : (selector .nHot properties reg width pathsCount).muxRegisters =
    .ofRegister reg width := rfl
  have htable (entry : Bits)
      (hentry : entry ∈ (selector .nHot properties reg width pathsCount).selectTable) :
      entry.length = width := by
    obtain ⟨path, -, rfl⟩ := List.mem_map.mp hentry
    exact code_length width path
  obtain ⟨read, kept, sent, hread, hkept, hfirst, hsteer⟩ :=
    PathSelector.deselect_sends rfl hdeselect
  rw [hregs, VirtualRegister.nextToSut_whole hmux hpos hwidth] at hread
  obtain rfl := Except.ok.inj hread
  have hsent := PathSelector.orFirstPath_length htable (hkept.trans hmux.next_length) hfirst
  obtain ⟨s'', hsteer', hmux'⟩ := PathSelector.steer_whole hmux hpos hwidth hregs hsent
  obtain rfl := Except.ok.inj (hsteer.symm.trans hsteer')
  exact ⟨sent, hmux'⟩

omit hle in
/-- Deselecting sends the register without the bit of the path, or with the bit of the first path only, or throws. -/
theorem deselect_nHot {sent : Bits} (hin : path < pathsCount + zeroEntries .nHot properties)
    (hfirst : (selector .nHot properties reg width pathsCount).orFirstPath
      (withBit properties width path properties.invertedBits next) = .ok sent)
    (hsent : sent.length = width)
    (hopen : properties.canSelectNone = false → sent ≠ code .nHot properties width 0) :
    ∃ s', (selector .nHot properties reg width pathsCount).deselect path s = .ok s' ∧
      s'.Mux reg width sent last := by
  have hentry := @selector_entry_deselect_lt .nHot properties reg width pathsCount path hin
  rw [← deselect_withBit hmux.next_length] at hfirst
  have hdeselect := PathSelector.deselect_nHot_eq rfl hpos hwidth hmux rfl hentry
    deselectCode_length hfirst
  have htable : (selector .nHot properties reg width pathsCount).selectTable[0]? =
      some (code .nHot properties width 0) := by
    have hsize : 0 < pathsCount + zeroEntries .nHot properties := by omega
    simp [selector, List.getElem?_range hsize]
  rw [htable, if_neg] at hdeselect
  · rw [hdeselect]
    exact PathSelector.steer_whole hmux hpos hwidth rfl hsent
  · rintro ⟨hnone, hclosed⟩
    exact hopen hnone (Option.some.inj hclosed)

omit hle in
/-- Until the register is sent, its last value stays, also with a call that throws. -/
theorem after_nHot {call : SelectorCall} (hcall : call ≠ .updateLastToSut) :
    ∃ next', (call.after (selector .nHot properties reg width pathsCount) reg s).Mux reg width
      next' last := by
  have hsize := @selector_size .nHot properties reg width pathsCount
  cases call with
  | select path =>
    by_cases hin : path < pathsCount + zeroEntries .nHot properties
    · obtain ⟨s', hselect, hmux'⟩ := PathSelector.select_nHot_mux
        (p := selector .nHot properties reg width pathsCount) rfl hpos hwidth hmux rfl
        (selector_entry_lt hin) (code_length width path)
      rw [SelectorCall.after, hselect]
      exact ⟨_, hmux'⟩
    · have hout : path ≥ (selector .nHot properties reg width pathsCount).selectTable.length := by
        omega
      obtain ⟨fault, hthrows⟩ := PathSelector.select_out rfl hout s
      rw [SelectorCall.after, hthrows]
      exact ⟨next, hmux⟩
  | deselect path =>
    cases hdeselect : (selector .nHot properties reg width pathsCount).deselect path s with
    | error fault =>
      rw [SelectorCall.after, hdeselect]
      exact ⟨next, hmux⟩
    | ok s' =>
      rw [SelectorCall.after, hdeselect]
      exact deselect_mux_last hpos hwidth hmux hdeselect
  | updateLastToSut => exact absurd rfl hcall

end Calls

/-! ### Independence -/

/-- Nothing but the bit of the path is set in the register. -/
def NothingElse (properties : SelectorProperty) (width path : Nat) (next : Bits) : Prop :=
  withBit properties width path properties.invertedBits next =
    List.replicate width properties.invertedBits

/-- The path is selected and no other one is; the entry 0 of the table stands for no path. -/
def OnlySelected (p : PathSelector) (s : SystemModel) (path : Nat) : Prop :=
  p.isSelected s path = .ok true ∧
    ∀ other, 0 < other → other ≠ path → p.isSelected s other ≠ .ok true

/-- The calls of a selector for a path leave the other paths alone. Deselecting the only path of a selector that has to select one is left out. -/
structure PathsIndependent (p : PathSelector) (reg : Nat) (s : SystemModel) : Prop where
  selects (path : Nat) : 0 < path → path < p.selectTable.length →
    ∃ s', p.select path s = .ok s' ∧ p.isSelected s' path = .ok true ∧
      ∀ other, other ≠ path → p.isSelected s' other = p.isSelected s other
  deselects (path : Nat) : 0 < path → path < p.selectTable.length →
    (p.canSelectNone = false → ¬OnlySelected p s path) →
    ∃ s', p.deselect path s = .ok s' ∧ p.isSelected s' path = .ok false ∧
      ∀ other, other ≠ path → p.isSelected s' other = p.isSelected s other
  active (call : SelectorCall) (path : Nat) : call ≠ .updateLastToSut →
    p.isActive (call.after p reg s) path = p.isActive s path
  activeCount : p.activeCount s =
    .ok {path | 0 < path ∧ path < p.selectTable.length ∧ p.isActive s path = .ok true}.ncard

def NothingSet (properties : SelectorProperty) (width : Nat) (next : Bits) : Prop :=
  next = List.replicate width properties.invertedBits

/-- The values of the register with which the calls for one path leave the others alone. With `StartAtZero` no bit of a path may be set, yet something has to be. -/
def LeavesAlone (properties : SelectorProperty) (width pathsCount : Nat) (next : Bits) : Prop :=
  if properties.startAtZero then
    properties.canSelectNone = false ∧ ¬NothingSet properties width next ∧
      ∀ path, 1 < path → path < pathsCount + 2 → marked properties width path next = false
  else properties.canSelectNone = true ∨ ¬NothingSet properties width next

theorem zeroEntries_le_of_ne (hpath : 0 < path)
    (hbit : properties.startAtZero = true → path ≠ 1) : zeroEntries .nHot properties ≤ path := by
  rw [zeroEntries_hot (by decide)]
  split
  · rename_i hstart
    have hapart := hbit hstart
    omega
  · exact hpath

section Independent

variable {s : SystemModel} (hpos : 0 < width) (hwidth : width < uint32Size)
  (hle : pathsCount ≤ width) (hmux : s.Mux reg width next last)
include hpos hwidth hle hmux

theorem select_independent (hpath : 0 < path)
    (hin : path < pathsCount + zeroEntries .nHot properties) :
    ∃ s', (selector .nHot properties reg width pathsCount).select path s = .ok s' ∧
      (selector .nHot properties reg width pathsCount).isSelected s' path = .ok true ∧
      ∀ other, other ≠ path →
        (selector .nHot properties reg width pathsCount).isSelected s' other =
          (selector .nHot properties reg width pathsCount).isSelected s other := by
  obtain ⟨s', hselect, hmux'⟩ := select_nHot hpos hwidth hmux hpath hin
  refine ⟨s', hselect, ?_, fun other hne => ?_⟩
  · rw [isSelected_nHot hpos hwidth hle hmux' hin]
    by_cases hfirst : path < zeroEntries .nHot properties
    · rw [marked, decide_eq_true hfirst, Bool.true_or]
    · rw [marked_withBit_self hle (by omega) hin _ hmux.next_length, beq_self_eq_true]
  · exact isSelected_congr hpos hwidth hle hmux hmux' fun hin' =>
      marked_withBit_other hle hin hin' hne _ next

/-- Unless nothing would be left in the register of a selector that has to select a path, deselecting removes one bit. -/
theorem deselect_independent (hpath : 0 < path)
    (hin : path < pathsCount + zeroEntries .nHot properties) (hpaths : 0 < pathsCount)
    (hopen : properties.canSelectNone = false → ¬NothingElse properties width path next) :
    ∃ s', (selector .nHot properties reg width pathsCount).deselect path s = .ok s' ∧
      ((properties.startAtZero = true → path ≠ 1) →
        (selector .nHot properties reg width pathsCount).isSelected s' path = .ok false) ∧
      ∀ other, other ≠ path →
        (selector .nHot properties reg width pathsCount).isSelected s' other =
          (selector .nHot properties reg width pathsCount).isSelected s other := by
  have hfirst : (selector .nHot properties reg width pathsCount).orFirstPath
      (withBit properties width path properties.invertedBits next) =
        .ok (withBit properties width path properties.invertedBits next) := by
    cases hnone : properties.canSelectNone with
    | true => exact if_pos hnone
    | false =>
      rw [orFirstPath_selector hnone hpaths, code_zero]
      exact congrArg Except.ok (if_neg (hopen hnone))
  obtain ⟨s', hdeselect, hmux'⟩ := deselect_nHot hpos hwidth hmux hin hfirst
    (by rw [withBit_length, hmux.next_length]) fun hnone => by
      rw [code_zero]
      exact hopen hnone
  refine ⟨s', hdeselect, fun hbit => ?_, fun other hne => ?_⟩
  · rw [isSelected_nHot hpos hwidth hle hmux' hin,
      marked_withBit_self hle (zeroEntries_le_of_ne hpath hbit) hin _ hmux.next_length]
    cases properties.invertedBits <;> rfl
  · exact isSelected_congr hpos hwidth hle hmux hmux' fun hin' =>
      marked_withBit_other hle hin hin' hne _ next

/-- When nothing would be left, the first path is selected alone. -/
theorem deselect_only (hin : path < pathsCount + zeroEntries .nHot properties)
    (hpaths : 0 < pathsCount) (hnone : properties.canSelectNone = false)
    (hstart : properties.startAtZero = false) (honly : NothingElse properties width path next) :
    ∃ s', (selector .nHot properties reg width pathsCount).deselect path s = .ok s' ∧
      ∀ other, 0 < other → other < pathsCount + zeroEntries .nHot properties →
        (selector .nHot properties reg width pathsCount).isSelected s' other =
          .ok (other == 1) := by
  have hzeros : zeroEntries .nHot properties = 1 := by
    rw [zeroEntries_hot (by decide), hstart, if_neg Bool.false_ne_true]
  have hone : 1 < pathsCount + zeroEntries .nHot properties := by omega
  have hfirst : (selector .nHot properties reg width pathsCount).orFirstPath
      (withBit properties width path properties.invertedBits next) =
        .ok (code .nHot properties width 1) := by
    rw [orFirstPath_selector hnone hpaths, code_zero]
    exact congrArg Except.ok (if_pos honly)
  have hself : marked properties width 1 (code .nHot properties width 1) = true := by
    rw [code_nHot, marked_withBit_self hle (by omega) hone _ List.length_replicate,
      beq_self_eq_true]
  obtain ⟨s', hdeselect, hmux'⟩ := deselect_nHot hpos hwidth hmux hin hfirst (code_length width 1)
    fun _ hcode => by
      rw [hcode, code_zero, marked_replicate hle (by omega) hone] at hself
      exact Bool.false_ne_true hself
  refine ⟨s', hdeselect, fun other hother hin' => ?_⟩
  rw [isSelected_nHot hpos hwidth hle hmux' hin']
  by_cases hsame : other = 1
  · rw [hsame, hself]
    rfl
  · rw [code_nHot, marked_withBit_other hle hone hin' hsame, marked_replicate hle (by omega) hin',
      beq_eq_false_iff_ne.mpr hsame]

omit hle in
theorem deselect_throws (hin : path < pathsCount + zeroEntries .nHot properties)
    (hpaths : 0 < pathsCount) (hnone : properties.canSelectNone = false)
    (hstart : properties.startAtZero = true) (honly : NothingElse properties width path next) :
    ∃ fault, (selector .nHot properties reg width pathsCount).deselect path s = .error fault := by
  have hzeros : zeroEntries .nHot properties = 2 := by
    rw [zeroEntries_hot (by decide), hstart, if_pos rfl]
  have hentry := @selector_entry_deselect_lt .nHot properties reg width pathsCount path hin
  have hone : code .nHot properties width 1 = code .nHot properties width 0 := by
    rw [code_zero, code_nHot, withBit, if_pos (by omega)]
  have hfirst : (selector .nHot properties reg width pathsCount).orFirstPath
      (List.zipWith (PathSelector.keepOp properties.invertedBits) next
        (deselectCode .nHot properties width path)) = .ok (code .nHot properties width 0) := by
    rw [deselect_withBit hmux.next_length, orFirstPath_selector hnone hpaths, hone,
      if_pos (honly.trans (code_zero .nHot properties width).symm)]
  have hclosed : some (code .nHot properties width 0) =
      (selector .nHot properties reg width pathsCount).selectTable[0]? := by
    have hsize : 0 < pathsCount + zeroEntries .nHot properties := by omega
    simp [selector, List.getElem?_range hsize]
  exact ⟨_, (PathSelector.deselect_nHot_eq rfl hpos hwidth hmux rfl hentry deselectCode_length
    hfirst).trans (if_pos ⟨hnone, hclosed⟩)⟩

omit hpos hwidth in
/-- A path whose bit is not set is no reason why nothing else should be. -/
theorem nothingSet_of_nothingElse (hin : path < pathsCount + zeroEntries .nHot properties)
    (hfirst : zeroEntries .nHot properties ≤ path)
    (hunmarked : marked properties width path next = false)
    (honly : NothingElse properties width path next) : NothingSet properties width next := by
  have hoffset : hotOffset properties width path < next.length := by
    rw [hmux.next_length]
    exact hotOffset_lt hle hfirst hin
  have hbit : next[hotOffset properties width path] = properties.invertedBits := by
    rw [marked, decide_eq_false (by omega), Bool.false_or, List.getElem?_eq_getElem hoffset,
      beq_eq_false_iff_ne] at hunmarked
    by_contra hne
    exact hunmarked (congrArg some (Bool.eq_not.mpr hne))
  rw [NothingElse, withBit, if_neg (by omega), ← hbit, List.set_getElem_self hoffset, hbit] at honly
  exact honly

omit hpos hwidth hmux in
theorem marked_of_nothingElse (honly : NothingElse properties width path next)
    (hin : path < pathsCount + zeroEntries .nHot properties)
    (hin' : other < pathsCount + zeroEntries .nHot properties) (hne : other ≠ path)
    (hfirst : zeroEntries .nHot properties ≤ other) :
    marked properties width other next = false := by
  rw [← marked_withBit_other hle hin hin' hne properties.invertedBits next, honly,
    marked_replicate hle hfirst hin']

theorem onlySelected_of_marked (hin : path < pathsCount + zeroEntries .nHot properties)
    (hself : marked properties width path next = true)
    (hothers : ∀ other, 0 < other → other ≠ path →
      other < pathsCount + zeroEntries .nHot properties →
      marked properties width other next = false) :
    OnlySelected (selector .nHot properties reg width pathsCount) s path := by
  refine ⟨by rw [isSelected_nHot hpos hwidth hle hmux hin, hself], ?_⟩
  intro other hother hne hselected
  by_cases hin' : other < pathsCount + zeroEntries .nHot properties
  · rw [isSelected_nHot hpos hwidth hle hmux hin', hothers other hother hne hin'] at hselected
    exact Bool.false_ne_true (Except.ok.inj hselected)
  · rw [PathSelector.isSelected_out (by rw [selector_size]; omega)] at hselected
    cases hselected

/-- Deselecting a path leaves the others alone when the register allows it. -/
theorem deselect_leaves (hleaves : LeavesAlone properties width pathsCount next)
    (hpath : 0 < path) (hin : path < pathsCount + zeroEntries .nHot properties)
    (hpaths : 0 < pathsCount)
    (hexcepted : properties.canSelectNone = false →
      ¬OnlySelected (selector .nHot properties reg width pathsCount) s path) :
    ∃ s', (selector .nHot properties reg width pathsCount).deselect path s = .ok s' ∧
      (selector .nHot properties reg width pathsCount).isSelected s' path = .ok false ∧
      ∀ other, other ≠ path →
        (selector .nHot properties reg width pathsCount).isSelected s' other =
          (selector .nHot properties reg width pathsCount).isSelected s other := by
  unfold LeavesAlone at hleaves
  have hzeros : zeroEntries .nHot properties = if properties.startAtZero then 2 else 1 :=
    zeroEntries_hot (by decide)
  have hbit : properties.startAtZero = true → path ≠ 1 := by
    -- the first path has no bit, and no other path is selected
    intro hstart hone
    rw [if_pos hstart] at hleaves hzeros
    refine hexcepted hleaves.1 (onlySelected_of_marked hpos hwidth hle hmux hin ?_ ?_)
    · rw [marked, decide_eq_true (by omega), Bool.true_or]
    · intro other hother hne hin'
      exact hleaves.2.2 other (by omega) (by omega)
  have hfirst := zeroEntries_le_of_ne hpath hbit
  have hopen : properties.canSelectNone = false → ¬NothingElse properties width path next := by
    intro hnone honly
    by_cases hstart : properties.startAtZero = true
    · rw [if_pos hstart] at hleaves hzeros
      exact hleaves.2.1 (nothingSet_of_nothingElse hle hmux hin hfirst
        (hleaves.2.2 path (by omega) (by omega)) honly)
    · rw [if_neg hstart] at hleaves hzeros
      have hset := hleaves.resolve_left (by rw [hnone]; exact Bool.false_ne_true)
      refine hexcepted hnone (onlySelected_of_marked hpos hwidth hle hmux hin ?_ ?_)
      · by_contra hunmarked
        exact hset (nothingSet_of_nothingElse hle hmux hin hfirst (by simpa using hunmarked) honly)
      · intro other hother hne hin'
        exact marked_of_nothingElse hle honly hin hin' hne (by omega)
  obtain ⟨s', hdeselect, hself, hothers⟩ :=
    deselect_independent hpos hwidth hle hmux hpath hin hpaths hopen
  exact ⟨s', hdeselect, hself hbit, hothers⟩

end Independent

theorem create_nHot {p : PathSelector} (hwidth : width < uint32Size)
    (hcreate : create .nHot reg width pathsCount properties = .ok p) :
    0 < width ∧ pathsCount ≤ width ∧ p = selector .nHot properties reg width pathsCount ∧
      (1 < pathsCount + zeroEntries .nHot properties → 0 < pathsCount) := by
  have hkind : DefaultSelector.nHot ≠ .binary := by decide
  have hlength := create_checks hcreate
  have hpos := (create_muxRegisters hcreate).1
  have hbuilds := Builds.of_create hwidth (fun h => absurd h hkind) hlength hcreate
  have hselector := Except.ok.inj (hcreate.symm.trans (hbuilds.create_selector hpos hlength))
  refine ⟨hpos, hbuilds.width_le hkind hlength, hselector, fun hmany => ?_⟩
  by_contra hnone
  obtain rfl : pathsCount = 0 := by omega
  rw [zeroEntries_hot hkind] at hmany
  split at hmany
  · -- the length check counts one path less than none
    rename_i hstart
    have hminimum := checkRegisterLength_le (checkRegisterLength_hot hkind hlength).1
    rw [hstart, if_pos rfl] at hminimum
    have hlast : pred32 0 = uint32Size - 1 := by decide
    have hvectors := hbuilds.vectors
    omega
  · omega

/-- A register that cannot be read as a whole is left as it is by every call. -/
theorem after_unread {p : PathSelector} {s : SystemModel} (hkind : p.kind = .nHot)
    (hunread : ∀ next, p.muxRegisters.nextToSut s ≠ .ok next) {call : SelectorCall}
    (hcall : call ≠ .updateLastToSut) : call.after p reg s = s := by
  cases call with
  | select path =>
    rw [SelectorCall.after]
    cases hselect : p.select path s with
    | error fault => rfl
    | ok s' =>
      obtain ⟨next, hread⟩ := PathSelector.select_reads hselect
      exact absurd hread (hunread next)
  | deselect path =>
    rw [SelectorCall.after]
    cases hdeselect : p.deselect path s with
    | error fault => rfl
    | ok s' =>
      obtain ⟨next, -, -, hread, -⟩ := PathSelector.deselect_sends hkind hdeselect
      exact absurd hread (hunread next)
  | updateLastToSut => exact absurd rfl hcall

theorem PathsIndependent.readable {p : PathSelector} {s : SystemModel}
    (hpaths : PathsIndependent p reg s) (hone : 1 < p.selectTable.length)
    (hregs : p.muxRegisters = .ofRegister reg width) (hwidth : width < uint32Size)
    (hpos : 0 < width) (hhas : (s.registers reg).HasWidth width) :
    (s.registers reg).bitsOrdering = .upto → width = 1 := by
  intro hupto
  by_contra hmany
  obtain ⟨s', hselect, -⟩ := hpaths.selects 1 (by decide) hone
  obtain ⟨next, hread⟩ := PathSelector.select_reads hselect
  rw [hregs] at hread
  exact VirtualRegister.getView_whole_upto hupto (by omega) hwidth hhas.nextToSut next hread

section Values

variable {s : SystemModel} (hpos : 0 < width) (hwidth : width < uint32Size)
  (hle : pathsCount ≤ width) (hmux : s.Mux reg width next last) (hpaths : 0 < pathsCount)
include hpos hwidth hle hmux hpaths

/-- The first path has no bit with `StartAtZero`, so that it has to be the only selected one of a selector that cannot select none. -/
theorem PathsIndependent.startAtZero
    (hindependent : PathsIndependent (selector .nHot properties reg width pathsCount) reg s)
    (hstart : properties.startAtZero = true) :
    properties.canSelectNone = false ∧ ¬NothingSet properties width next ∧
      ∀ path, 1 < path → path < pathsCount + 2 → marked properties width path next = false := by
  have hsize := @selector_size .nHot properties reg width pathsCount
  have hzeros : zeroEntries .nHot properties = 2 := by
    rw [zeroEntries_hot (by decide), hstart, if_pos rfl]
  rw [hzeros] at hsize
  have honly : properties.canSelectNone = false ∧
      OnlySelected (selector .nHot properties reg width pathsCount) s 1 := by
    by_contra hcounts
    obtain ⟨s', hdeselect, hself, -⟩ := hindependent.deselects 1 (by decide) (by omega)
      fun hnone honly => hcounts ⟨hnone, honly⟩
    obtain ⟨next', hmux'⟩ := deselect_mux_last hpos hwidth hmux hdeselect
    rw [isSelected_nHot hpos hwidth hle hmux' (by omega), marked, decide_eq_true (by omega),
      Bool.true_or] at hself
    cases hself
  have hunmarked : ∀ path, 1 < path → path < pathsCount + 2 →
      marked properties width path next = false := by
    intro path hpath hin
    have hnot := honly.2.2 path (by omega) (by omega)
    rw [isSelected_nHot hpos hwidth hle hmux (by omega)] at hnot
    simpa using hnot
  refine ⟨honly.1, ?_, hunmarked⟩
  intro hnothing
  have hsecond : NothingElse properties width 2 next := by
    rw [NothingElse, hnothing, withBit, List.set_replicate_self, ite_self]
  obtain ⟨fault, hthrows⟩ :=
    deselect_throws hpos hwidth hmux (by omega) hpaths honly.1 hstart hsecond
  obtain ⟨s', hdeselect, -⟩ := hindependent.deselects 2 (by decide) (by omega) fun _ htwo => by
    have hself := htwo.1
    rw [isSelected_nHot hpos hwidth hle hmux (by omega), hunmarked 2 (by decide) (by omega)] at hself
    cases hself
  rw [hthrows] at hdeselect
  cases hdeselect

/-- A selector that cannot select none selects its first path when none is. -/
theorem PathsIndependent.anySet
    (hindependent : PathsIndependent (selector .nHot properties reg width pathsCount) reg s)
    (hstart : properties.startAtZero = false) :
    properties.canSelectNone = true ∨ ¬NothingSet properties width next := by
  have hsize := @selector_size .nHot properties reg width pathsCount
  have hzeros : zeroEntries .nHot properties = 1 := by
    rw [zeroEntries_hot (by decide), hstart, if_neg Bool.false_ne_true]
  by_contra hclosed
  simp only [not_or, not_not, Bool.not_eq_true] at hclosed
  obtain ⟨hnone, hnothing⟩ := hclosed
  have hfirst : NothingElse properties width 1 next := by
    rw [NothingElse, hnothing, withBit, List.set_replicate_self, ite_self]
  obtain ⟨s', hdeselect, hselected⟩ :=
    deselect_only hpos hwidth hle hmux (by omega) hpaths hnone hstart hfirst
  obtain ⟨s'', hdeselect', hself, -⟩ := hindependent.deselects 1 (by decide) (by omega)
    fun _ hone => by
      have hself := hone.1
      rw [isSelected_nHot hpos hwidth hle hmux (by omega), hnothing,
        marked_replicate hle (by omega) (by omega)] at hself
      cases hself
  obtain rfl : s' = s'' := Except.ok.inj (hdeselect.symm.trans hdeselect')
  rw [hselected 1 (by decide) (by omega)] at hself
  cases hself

end Values

/-- No call but that of the SUT changes which paths are active, also on a register whose halves the selector cannot read. -/
theorem isActive_after_nHot {s : SystemModel} {call : SelectorCall} (hpos : 0 < width)
    (hwidth : width < uint32Size) (hhas : (s.registers reg).HasWidth width)
    (hcall : call ≠ .updateLastToSut) :
    (selector .nHot properties reg width pathsCount).isActive
        (call.after (selector .nHot properties reg width pathsCount) reg s) path =
      (selector .nHot properties reg width pathsCount).isActive s path := by
  by_cases hordering : (s.registers reg).bitsOrdering = .upto → width = 1
  · have hmux : s.Mux reg width (s.registers reg).nextToSut (s.registers reg).lastToSut :=
      ⟨hhas, hordering, rfl, rfl⟩
    obtain ⟨next, hmux'⟩ := after_nHot hpos hwidth hmux hcall
    exact isActive_congr hpos hwidth hmux hmux'
  · push Not at hordering
    have hunread (next : Bits) :
        (selector .nHot properties reg width pathsCount).muxRegisters.nextToSut s ≠ .ok next :=
      VirtualRegister.getView_whole_upto hordering.1 (by omega) hwidth hhas.nextToSut next
    rw [after_unread rfl hunread hcall]

/-- The calls of an N-hot selector for a path leave the others alone for some values of its register only. -/
theorem pathsIndependent_iff {p : PathSelector} {s : SystemModel} (hwidth : width < uint32Size)
    (hcreate : create .nHot reg width pathsCount properties = .ok p)
    (hhas : (s.registers reg).HasWidth width) :
    PathsIndependent p reg s ↔ pathsCount = 0 ∨
      ((s.registers reg).bitsOrdering = .upto → width = 1) ∧
        LeavesAlone properties width pathsCount (s.registers reg).nextToSut := by
  obtain ⟨hpos, hle, rfl, hmany⟩ := create_nHot hwidth hcreate
  have hsize := @selector_size .nHot properties reg width pathsCount
  have hmux (hordering : (s.registers reg).bitsOrdering = .upto → width = 1) :
      s.Mux reg width (s.registers reg).nextToSut (s.registers reg).lastToSut :=
    ⟨hhas, hordering, rfl, rfl⟩
  have hzeros : zeroEntries .nHot properties = if properties.startAtZero then 2 else 1 :=
    zeroEntries_hot (by decide)
  constructor
  · intro hindependent
    by_cases hpaths : pathsCount = 0
    · exact .inl hpaths
    have hordering := hindependent.readable (by rw [hsize, hzeros]; split <;> omega) rfl hwidth
      hpos hhas
    refine .inr ⟨hordering, ?_⟩
    unfold LeavesAlone
    split
    · rename_i hstart
      exact hindependent.startAtZero hpos hwidth hle (hmux hordering) (by omega) hstart
    · rename_i hstart
      exact hindependent.anySet hpos hwidth hle (hmux hordering) (by omega) (by simpa using hstart)
  · intro hvalue
    constructor
    · intro path hpath hin
      rw [hsize] at hin
      have hpaths := hmany (by omega)
      obtain ⟨hordering, -⟩ := hvalue.resolve_left (by omega)
      exact select_independent hpos hwidth hle (hmux hordering) hpath hin
    · intro path hpath hin hexcepted
      rw [hsize] at hin
      have hpaths := hmany (by omega)
      obtain ⟨hordering, hleaves⟩ := hvalue.resolve_left (by omega)
      exact deselect_leaves hpos hwidth hle (hmux hordering) hleaves hpath hin hpaths hexcepted
    · intro call path hcall
      exact isActive_after_nHot hpos hwidth hhas hcall
    · by_cases hordering : (s.registers reg).bitsOrdering = .upto → width = 1
      · have hactive (path : Nat)
            (hin : path < (selector .nHot properties reg width pathsCount).selectTable.length) :
            (selector .nHot properties reg width pathsCount).isActive s path =
              .ok (marked properties width path (s.registers reg).lastToSut) := by
          rw [hsize] at hin
          exact isActive_nHot hpos hwidth hle (hmux hordering) hin
        exact PathSelector.activeCount_eq hactive
      · -- a selector without paths reads nothing
        obtain rfl := hvalue.resolve_right fun h => hordering h.1
        refine PathSelector.activeCount_noPath ?_
        by_contra hpath
        exact absurd (hmany (by omega)) (by decide)

/-- With two paths and nothing beside them: any value when none can be selected, any but zero otherwise. -/
theorem pathsIndependent_two_paths :
    (∃ p, create .nHot 0 2 2 ⟨true, false, false, false⟩ = .ok p ∧
      PathsIndependent p 0 (createdModel [true, true] .downto)) ∧
    ∃ p, create .nHot 0 2 2 ⟨false, false, true, false⟩ = .ok p ∧
      PathsIndependent p 0 (createdModel [true, false] .downto) := by
  have hopen : create .nHot 0 2 2 ⟨true, false, false, false⟩ =
      .ok (selector .nHot ⟨true, false, false, false⟩ 0 2 2) := rfl
  have hclosed : create .nHot 0 2 2 ⟨false, false, true, false⟩ =
      .ok (selector .nHot ⟨false, false, true, false⟩ 0 2 2) := rfl
  exact ⟨⟨_, hopen, (pathsIndependent_iff (by decide) hopen ⟨rfl, rfl, rfl⟩).mpr
      (.inr ⟨nofun, .inl rfl⟩)⟩,
    _, hclosed, (pathsIndependent_iff (by decide) hclosed ⟨rfl, rfl, rfl⟩).mpr
      (.inr ⟨nofun, .inr nofun⟩)⟩

/-- Two paths that start at zero: with the second one selected by its bit and the first one by none, the second cannot be deselected. -/
theorem not_pathsIndependent :
    ¬∀ (properties : SelectorProperty) (reg width pathsCount : Nat) (p : PathSelector)
      (s : SystemModel), create .nHot reg width pathsCount properties = .ok p →
        (s.registers reg).HasWidth width → PathsIndependent p reg s := by
  intro hall
  have hindependent := hall ⟨false, false, false, true⟩ 0 2 2
    (selector .nHot ⟨false, false, false, true⟩ 0 2 2) (createdModel [true, false] .downto) rfl
    ⟨rfl, rfl, rfl⟩
  obtain ⟨s', hdeselect, -⟩ := hindependent.deselects 2 (by decide) (by decide) fun _ honly =>
    honly.2 1 (by decide) (by decide) rfl
  cases hdeselect

end DefaultSelector

end Mast
