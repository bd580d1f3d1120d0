import Mast.Retarget.Levers

/-!
# Decisions about a linker

Whichever algorithm is used, what `VisitLinker` decides for a path is a step of a controller that visits the paths of a multiplexer, and its last decision is one such a controller may take. The algorithms differ in what they do with a pending path that is active already.
-/

namespace Mast

open Multiplexers Outcome

/-- What an algorithm does with a pending path that is active. -/
def ConfigureAlgorithm.policy : ConfigureAlgorithm → Response
  | .builtIn => .choose
  | .closeAll => .drop
  | .lastOrDefault | .lastOrDefaultGreedy | .lastLazy => .keep

namespace SystemModel

theorem setPendingCount_self (s : SystemModel) (id : Nat) :
    s.setPendingCount id (s.pendingCounts id) = s := by
  rw [setPendingCount, Function.update_eq_self]

variable {s : SystemModel} {reg width : Nat} {next last : Bits}

theorem Mux.setPendingCount (hmux : s.Mux reg width next last) (id count : Nat) :
    (s.setPendingCount id count).Mux reg width next last :=
  ⟨hmux.hasWidth, hmux.ordering, hmux.nextToSut, hmux.lastToSut⟩

theorem Mux.turned (hmux : s.Mux reg width next last) : s.Turned reg width next s where
  steered := .refl s
  sameSetup := .refl s
  hasWidth := hmux.hasWidth
  nextToSut := hmux.nextToSut
  kept _ := rfl
  flagged hnew := absurd hmux.nextToSut hnew

end SystemModel

section Linker

variable {mib : Mib} {l : Linker} (hl : l.selector = mib.selector) {s : SystemModel}
  {next last : Bits} (hmux : s.Mux mib.selectorRegister mib.width next last) {i : Nat}
include hl

theorem Linker.check_eq (hle : i ≤ mib.paths) {α : Type} (question : Except Fault α) :
    Linker.checkPathIdentifier l.selector i question = question := by
  have hpaths : ¬i > l.selector.selectablePaths := by
    rw [hl]
    exact Nat.not_lt.mpr (hle.trans mib.paths_le)
  exact if_neg hpaths

include hmux

theorem Linker.isActive_mib (hle : i ≤ mib.paths) :
    Linker.isActive l.selector s i = .ok (mib.lever.opens last i) := by
  rw [Linker.isActive, Linker.check_eq hl hle, hl]
  exact Mib.selector_isActive hmux (hle.trans mib.paths_le)

theorem Linker.isSelected_mib (hle : i ≤ mib.paths) :
    l.isSelected s i = .ok (mib.lever.opens next i) := by
  rw [Linker.isSelected, Linker.check_eq hl hle, hl]
  exact Mib.selector_isSelected hmux (hle.trans mib.paths_le)

theorem Linker.select_mib (hi : 0 < i) (hle : i ≤ mib.paths) :
    ∃ s', l.select i s = .ok s' ∧
      s.Turned mib.selectorRegister mib.width (mib.lever.choose next i) s' := by
  rw [Linker.select, Linker.check_eq hl hle, if_neg fun hzero => by omega, hl,
    Mib.selector_select hmux (hle.trans mib.paths_le) hi]
  exact PathSelector.steer_turned rfl mib.width_pos mib.width_lt hmux
    (Mib.choose_length hmux.next_length i)

theorem Linker.deselect_mib (hle : i ≤ mib.paths) :
    ∃ s', l.deselect i s = .ok s' ∧
      s.Turned mib.selectorRegister mib.width (mib.lever.drop next i) s' := by
  rw [Linker.deselect, Linker.check_eq hl hle, hl,
    Mib.selector_deselect hmux (hle.trans mib.paths_le)]
  exact PathSelector.steer_turned rfl mib.width_pos mib.width_lt hmux
    (Mib.drop_length hmux.next_length i)

/-- No path is selected unless the register is still pending. -/
theorem Linker.selectNone_mib :
    ∃ value s', l.select 0 s = .ok s' ∧ s.Turned mib.selectorRegister mib.width value s' ∧
      (value = next ∨ value = mib.lever.closed) := by
  rw [Linker.select, Linker.check_eq hl (Nat.zero_le _)]
  split
  · exact ⟨next, s, rfl, hmux.turned, .inl rfl⟩
  · have hclosed : mib.lever.closed.length = mib.width := by
      rw [Mib.lever_closed]
      exact Mib.closedValue_length
    obtain ⟨s', hsteer, hturned⟩ :=
      PathSelector.steer_turned (p := mib.selector) rfl mib.width_pos mib.width_lt hmux hclosed
    refine ⟨mib.lever.closed, s', ?_, hturned, .inr rfl⟩
    rw [hl, Mib.selector_selectNone hmux]
    exact hsteer

theorem Linker.selectInactive_mib (hi : 0 < i) (hle : i ≤ mib.paths) :
    ∃ s', l.selectInactive i s = .ok s' ∧ s.Turned mib.selectorRegister mib.width
      (if mib.lever.opens last i then next else mib.lever.choose next i) s' := by
  rw [Linker.selectInactive, Linker.isActive_mib hl hmux hle]
  cases mib.lever.opens last i with
  | true => exact ⟨s, rfl, hmux.turned⟩
  | false => exact Linker.select_mib hl hmux hi hle

/-! ### One path -/

namespace ConfigureVisitor

theorem processPending_mib (algorithm : ConfigureAlgorithm) (hkeep : l.keepOpen = false)
    (hi : 0 < i) (hle : i ≤ mib.paths) :
    ∃ s', (match algorithm.create with
        | some algorithm => algorithm.processPending l i s
        | none => l.select i s) = .ok s' ∧
      s.Turned mib.selectorRegister mib.width
        (if mib.lever.opens last i then mib.lever.act i next algorithm.policy
          else mib.lever.choose next i) s' := by
  cases algorithm with
  | builtIn =>
    obtain ⟨s', hselect, hturned⟩ := Linker.select_mib hl hmux hi hle
    refine ⟨s', hselect, ?_⟩
    rwa [show mib.lever.act i next ConfigureAlgorithm.builtIn.policy = mib.lever.choose next i
      from rfl, ite_self]
  | closeAll =>
    change ∃ s', l.closeActive i s = .ok s' ∧ _
    rw [Linker.closeActive, Linker.isActive_mib hl hmux hle]
    cases mib.lever.opens last i with
    | true =>
      obtain ⟨s', hdeselect, hturned⟩ := Linker.deselect_mib hl hmux hle
      refine ⟨s', ?_, hturned⟩
      rw [← hdeselect, hkeep]
      rfl
    | false => exact Linker.select_mib hl hmux hi hle
  | lastOrDefault => exact Linker.selectInactive_mib hl hmux hi hle
  | lastOrDefaultGreedy => exact Linker.selectInactive_mib hl hmux hi hle
  | lastLazy => exact Linker.selectInactive_mib hl hmux hi hle

/-- The decision about a path is a step of the controller. -/
theorem decide_mib (algorithm : ConfigureAlgorithm) (hkeep : l.keepOpen = false) (hi : 0 < i)
    (hle : i ≤ mib.paths) (child : Nodes) :
    ∃ count s', decide algorithm.create (some (l, i)) child s = .ok s' ∧
      (s.setPendingCount l.id count).Turned mib.selectorRegister mib.width
        (mib.lever.step algorithm.policy last i (child.isPending s) next) s' := by
  unfold decide Multiplexer.step
  cases hchild : child.isPending s with
  | true =>
    obtain ⟨s', hprocess, hturned⟩ := processPending_mib hl
      (hmux.setPendingCount l.id (s.pendingCounts l.id + child.pendingCount s)) algorithm hkeep hi
      hle
    exact ⟨_, s', hprocess, hturned⟩
  | false =>
    refine ⟨s.pendingCounts l.id, ?_⟩
    rw [SystemModel.setPendingCount_self]
    simp only [Bool.false_eq_true, if_false, Linker.isSelected_mib hl hmux hle, hkeep, bind,
      Except.bind, Bool.not_false, Bool.and_true]
    cases mib.lever.opens next i with
    | true => exact Linker.deselect_mib hl hmux hle
    | false => exact ⟨s, rfl, hmux.turned⟩

/-! ### The last decision -/

theorem anySelectedAndActive_mib {count : Nat} (hi : 0 < i)
    (hle : i + count ≤ mib.pathsCount + 1) :
    ∃ found, l.anySelectedAndActive s count i = .ok found ∧ (found = true →
      ∃ j, 0 < j ∧ j ≤ mib.pathsCount ∧ mib.lever.opens next j = true ∧
        mib.lever.opens last j = true) := by
  induction count generalizing i with
  | zero => exact ⟨false, rfl, fun hfound => absurd hfound Bool.false_ne_true⟩
  | succ count ih =>
    obtain ⟨found, hrest, hfound⟩ := ih (Nat.succ_pos i) (by omega)
    have hboth := Mib.selector_isSelectedAndActive hmux (show i ≤ mib.pathsCount by omega)
    rw [Linker.anySelectedAndActive, hl, hboth]
    cases hopen : mib.lever.opens next i && mib.lever.opens last i with
    | true =>
      rw [Bool.and_eq_true] at hopen
      exact ⟨true, rfl, fun _ => ⟨i, hi, by omega, hopen⟩⟩
    | false => exact ⟨found, hrest, hfound⟩

/-- The last decision about a linker closes it only if nothing is pending or an active path would stay selected. -/
theorem resolve_mib (algorithm : ConfigureAlgorithm) (hproper : mib.lever.Proper next)
    {works : List Bool} (hpending : l.isPending s = false → ∀ work ∈ works, work = false) :
    ∃ value s', resolve algorithm.create l s = .ok s' ∧
      s.Turned mib.selectorRegister mib.width value s' ∧
      mib.lever.Resolved last works next value := by
  have hnone : l.isPending s = false → ∃ value s', l.select 0 s = .ok s' ∧
      s.Turned mib.selectorRegister mib.width value s' ∧
      mib.lever.Resolved last works next value := by
    intro hidle
    obtain ⟨value, s', hselect, hturned, hvalue⟩ := Linker.selectNone_mib hl hmux
    exact ⟨value, s', hselect, hturned,
      hvalue.imp_right fun hclosed => ⟨hclosed, .inl (hpending hidle)⟩⟩
  have hkept : ∃ value s', (Except.ok s : Except Fault SystemModel) = .ok s' ∧
      s.Turned mib.selectorRegister mib.width value s' ∧ mib.lever.Resolved last works next value :=
    ⟨next, s, rfl, hmux.turned, .inl rfl⟩
  have hdefault : ∃ value s', l.selectNone s = .ok s' ∧
      s.Turned mib.selectorRegister mib.width value s' ∧
      mib.lever.Resolved last works next value := by
    unfold Linker.selectNone
    split
    · exact hnone ‹_›
    · exact hkept
  cases algorithm with
  | builtIn => exact hdefault
  | lastOrDefault => exact hdefault
  | lastLazy => exact hkept
  | closeAll => exact hkept
  | lastOrDefaultGreedy =>
    change ∃ value s', l.resolveGreedily s = .ok s' ∧ _
    unfold Linker.resolveGreedily
    split
    · exact hnone ‹_›
    · split
      · have hcount : 1 + l.selector.selectablePaths ≤ mib.pathsCount + 1 := by
          rw [hl, Nat.add_comm]
          exact Nat.le_refl _
        obtain ⟨found, hany, hfound⟩ := anySelectedAndActive_mib hl hmux Nat.one_pos hcount
        rw [hany]
        cases found with
        | false => exact hkept
        | true =>
          obtain ⟨j, hj, hle, hnext, hlast⟩ := hfound rfl
          obtain ⟨value, s', hselect, hturned, hvalue⟩ := Linker.selectNone_mib hl hmux
          refine ⟨value, s', hselect, hturned, ?_⟩
          rcases hvalue with hsame | hclosed
          · exact .inl hsame
          · by_cases hused : j ≤ mib.paths
            · exact .inr ⟨hclosed, .inr ⟨j, hj, hused, hlast, hnext⟩⟩
            · rw [← Mib.eq_closed_of_opens hproper (by omega) hle hnext] at hclosed
              exact .inl hclosed
      · exact hkept

end ConfigureVisitor

end Linker

end Mast
