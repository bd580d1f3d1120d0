import Mast.Retarget.Trees

/-!
# What a configuration decides

A pass of the configurator over a tree of MIBs settles the lever of every linker, by what is pending below its paths when the pass is over: visiting one node changes nothing below the others. A register whose value has been changed is pending, and the counts of the parent nodes tell what is pending below them.
-/

namespace Mast

open Multiplexers Outcome

variable {mibs : Nat → Mib} {algorithm : ConfigureAlgorithm} {s s₁ s' : SystemModel}

namespace Mib

variable (mib : Mib)

/-- The register of the selector can be read as a whole, and it is to be sent a value the selector may have left there. -/
structure Ready (s : SystemModel) : Prop where
  hasWidth : (s.registers mib.selectorRegister).HasWidth mib.width
  ordering : (s.registers mib.selectorRegister).bitsOrdering = .upto → mib.width = 1
  proper : mib.lever.Proper (s.registers mib.selectorRegister).nextToSut

/-- Where the lever is once the paths from a number on have been visited. -/
def settled (algorithm : ConfigureAlgorithm) (s : SystemModel) (i : Nat) (works : List Bool) :
    Bits :=
  mib.lever.settle algorithm.policy (s.registers mib.selectorRegister).lastToSut i works
    (s.registers mib.selectorRegister).nextToSut

/-- Whether the lever is moved on the way. -/
def moves (algorithm : ConfigureAlgorithm) (s : SystemModel) (i : Nat) (works : List Bool) : Bool :=
  mib.lever.moves algorithm.policy (s.registers mib.selectorRegister).lastToSut i works
    (s.registers mib.selectorRegister).nextToSut

variable {mib}

theorem Ready.mux (h : mib.Ready s) : s.Mux mib.selectorRegister mib.width
    (s.registers mib.selectorRegister).nextToSut (s.registers mib.selectorRegister).lastToSut :=
  ⟨h.hasWidth, h.ordering, rfl, rfl⟩

theorem Ready.congr (h : mib.Ready s)
    (hsame : s'.registers mib.selectorRegister = s.registers mib.selectorRegister) :
    mib.Ready s' := by
  constructor <;> rw [hsame]
  · exact h.hasWidth
  · exact h.ordering
  · exact h.proper

end Mib

/-- What a pass from one state to another does with the register of a linker, given what is pending on its paths and whether the register has been visited. -/
structure Decided (algorithm : ConfigureAlgorithm) (mib : Mib) (works : List Bool) (visited : Prop)
    (s s' : SystemModel) : Prop where
  resolved : mib.lever.Resolved (s.registers mib.selectorRegister).lastToSut works
    (mib.settled algorithm s 1 works) (s'.registers mib.selectorRegister).nextToSut
  hasWidth : (s'.registers mib.selectorRegister).HasWidth mib.width
  quiet : mib.moves algorithm s 1 works = false →
    (s'.registers mib.selectorRegister).nextToSut = (s.registers mib.selectorRegister).nextToSut →
    visited →
    (s'.registers mib.selectorRegister).nextToSut = (s'.registers mib.selectorRegister).lastToSut →
    (s'.registers mib.selectorRegister).pendingCount = 0
  kept : mib.moves algorithm s 1 works = false →
    (s'.registers mib.selectorRegister).nextToSut = (s.registers mib.selectorRegister).nextToSut →
    ¬visited → s'.registers mib.selectorRegister = s.registers mib.selectorRegister
  touched : ¬visited → s'.registers mib.selectorRegister = s.registers mib.selectorRegister ∨
    (s'.registers mib.selectorRegister).pendingCount ≠ 0

/-- What a pass over nodes leaves behind. -/
structure Configured (mibs : Nat → Mib) (algorithm : ConfigureAlgorithm) (nodes : Nodes)
    (s s' : SystemModel) : Prop where
  written (id : Nat) : id ∈ nodes.registerIds →
    (s'.registers id).nextToSut ≠ (s'.registers id).lastToSut → (s'.registers id).pendingCount ≠ 0
  counts (id : Nat) (firstChild : Nodes) : (id, firstChild) ∈ nodes.parents →
    (s'.pendingCounts id ≠ 0 ↔ firstChild.anyPending s' = true)
  linkers (id : Nat) (firstChild : Nodes) : (id, firstChild) ∈ nodes.linkers →
    Decided algorithm (mibs id) (firstChild.works s')
      ((mibs id).selectorRegister ∈ nodes.registerIds) s s'

theorem ConfigureVisitor.visitRegister_quiet {r : Register} (hsent : r.nextToSut = r.lastToSut) :
    (visitRegister r).pendingCount = 0 := by
  simp [visitRegister, Register.setPendingForWrite, hsent]

theorem ConfigureVisitor.visitRegister_written {r : Register} (hnew : r.nextToSut ≠ r.lastToSut) :
    (visitRegister r).pendingCount ≠ 0 := by
  simp [visitRegister, Register.setPendingForWrite, hnew]

/-! ### One node after another -/

/-- The nodes are a first one and those after it. -/
inductive Nodes.Splits : Nodes → Nodes → Nodes → Prop
  | register (id : Nat) (nextSibling : Nodes) :
      Splits (.register id nextSibling) (.register id .none) nextSibling
  | parent (kind : ParentKind) (id : Nat) (firstChild nextSibling : Nodes) :
      Splits (.parent kind id firstChild nextSibling) (.parent kind id firstChild .none) nextSibling

namespace Nodes.Splits

variable {nodes head tail : Nodes} (h : nodes.Splits head tail)
include h

theorem registerIds : nodes.registerIds = head.registerIds ++ tail.registerIds := by
  cases h <;> simp [Nodes.registerIds]

theorem parentIds : nodes.parentIds = head.parentIds ++ tail.parentIds := by
  cases h <;> simp [Nodes.parentIds]

theorem parents : nodes.parents = head.parents ++ tail.parents := by
  cases h <;> simp [Nodes.parents]

theorem linkers : nodes.linkers = head.linkers ++ tail.linkers := by
  cases h with
  | register => rfl
  | parent kind => cases kind <;> simp [Nodes.linkers]

theorem selectorRegisters :
    nodes.selectorRegisters = head.selectorRegisters ++ tail.selectorRegisters := by
  cases h with
  | register => rfl
  | parent kind => cases kind <;> simp [Nodes.selectorRegisters]

theorem siblingsCount : nodes.siblingsCount = tail.siblingsCount + 1 := by
  cases h <;> rfl

theorem works (s : SystemModel) :
    ∃ work, head.works s = [work] ∧ nodes.works s = work :: tail.works s := by
  cases h <;> exact ⟨_, rfl, rfl⟩

end Nodes.Splits

theorem Visited.registers_eq {regs ids : List Nat} (h : Visited regs ids s s') {id : Nat}
    (hregs : id ∉ regs) (hids : id ∉ ids) : s'.registers id = s.registers id := by
  rw [h.flagged id hregs, if_neg hids]

/-- The two passes keep apart: what one decides on is not changed by the other. -/
structure Apart (mibs : Nat → Mib) (head tail : Nodes) (regs regs' : List Nat)
    (s₁ s' : SystemModel) : Prop where
  registers (id : Nat) : id ∈ head.registerIds → id ∉ tail.registerIds
  below (id : Nat) (firstChild : Nodes) : (id, firstChild) ∈ head.parents →
    ∀ reg ∈ firstChild.registerIds, reg ∉ regs'
  steered (reg : Nat) : reg ∈ head.registerIds → reg ∈ regs' →
    ∃ linker ∈ tail.linkers, (mibs linker.1).selectorRegister = reg
  headSelectors (id : Nat) (firstChild : Nodes) : (id, firstChild) ∈ head.linkers →
    (mibs id).selectorRegister ∉ regs'
  tailSelectors (id : Nat) (firstChild : Nodes) : (id, firstChild) ∈ tail.linkers →
    (mibs id).selectorRegister ∉ regs
  counts (id : Nat) (firstChild : Nodes) : (id, firstChild) ∈ head.parents →
    s'.pendingCounts id = s₁.pendingCounts id

section Append

variable {nodes head tail : Nodes} {regs regs' : List Nat} (hsplits : nodes.Splits head tail)
  (hapart : Apart mibs head tail regs regs' s₁ s')
  (hhead : Configured mibs algorithm head s s₁) (hvisited : Visited regs head.registerIds s s₁)
  (htail : Configured mibs algorithm tail s₁ s') (hvisited' : Visited regs' tail.registerIds s₁ s')
include hapart

theorem Apart.below_eq (hvisited' : Visited regs' tail.registerIds s₁ s') {id : Nat}
    {firstChild : Nodes} (hmem : (id, firstChild) ∈ head.parents) :
    ∀ reg ∈ firstChild.registerIds, s'.registers reg = s₁.registers reg := by
  intro reg hreg
  have hhead := (Nodes.mem_parents hmem).2 hreg
  exact hvisited'.registers_eq (hapart.below id firstChild hmem reg hreg)
    (hapart.registers reg hhead)

include hvisited' hsplits

theorem Decided.before {id : Nat} {firstChild : Nodes} (hmem : (id, firstChild) ∈ head.linkers)
    (hdecided : Decided algorithm (mibs id) (firstChild.works s₁)
      ((mibs id).selectorRegister ∈ head.registerIds) s s₁) :
    Decided algorithm (mibs id) (firstChild.works s')
      ((mibs id).selectorRegister ∈ nodes.registerIds) s s' := by
  have hworks : firstChild.works s' = firstChild.works s₁ :=
    Nodes.works_congr (hapart.below_eq hvisited' (Nodes.linkers_subset head hmem))
  have hflagged := hvisited'.flagged _ (hapart.headSelectors id firstChild hmem)
  rw [hworks, hsplits.registerIds]
  by_cases hlater : (mibs id).selectorRegister ∈ tail.registerIds
  · rw [if_pos hlater] at hflagged
    have hvisits : (mibs id).selectorRegister ∈ head.registerIds ++ tail.registerIds :=
      List.mem_append_right _ hlater
    refine ⟨?_, ?_, fun _ _ _ hsent => ?_, fun _ _ hnot => absurd hvisits hnot,
      fun hnot => absurd hvisits hnot⟩
    · rw [hflagged]
      exact hdecided.resolved
    · rw [hflagged]
      exact ⟨hdecided.hasWidth.nextToSut, hdecided.hasWidth.lastToSut, hdecided.hasWidth.bypass⟩
    · rw [hflagged] at hsent ⊢
      exact ConfigureVisitor.visitRegister_quiet hsent
  · rw [if_neg hlater] at hflagged
    have hiff : (mibs id).selectorRegister ∈ head.registerIds ++ tail.registerIds ↔
        (mibs id).selectorRegister ∈ head.registerIds := by
      rw [List.mem_append]
      exact or_iff_left hlater
    rw [hiff]
    constructor <;> rw [hflagged]
    · exact hdecided.resolved
    · exact hdecided.hasWidth
    · exact hdecided.quiet
    · exact hdecided.kept
    · exact hdecided.touched

include hvisited

omit hvisited' in
theorem Decided.after {id : Nat} {firstChild : Nodes} (hmem : (id, firstChild) ∈ tail.linkers)
    (hdecided : Decided algorithm (mibs id) (firstChild.works s')
      ((mibs id).selectorRegister ∈ tail.registerIds) s₁ s') :
    Decided algorithm (mibs id) (firstChild.works s')
      ((mibs id).selectorRegister ∈ nodes.registerIds) s s' := by
  have hflagged := hvisited.flagged _ (hapart.tailSelectors id firstChild hmem)
  have hnext : (s₁.registers (mibs id).selectorRegister).nextToSut =
      (s.registers (mibs id).selectorRegister).nextToSut := by
    rw [hflagged]
    split <;> rfl
  have hlast : (s₁.registers (mibs id).selectorRegister).lastToSut =
      (s.registers (mibs id).selectorRegister).lastToSut := by
    rw [hflagged]
    split <;> rfl
  obtain ⟨hresolved, hwidth, hquiet, hkept, htouched⟩ := hdecided
  unfold Mib.settled at hresolved
  unfold Mib.moves at hquiet hkept
  rw [hnext, hlast] at hresolved
  rw [hnext, hlast] at hquiet hkept
  have hiff : (mibs id).selectorRegister ∈ nodes.registerIds ↔
      (mibs id).selectorRegister ∈ head.registerIds ∨
        (mibs id).selectorRegister ∈ tail.registerIds := by
    rw [hsplits.registerIds, List.mem_append]
  rw [hiff]
  refine ⟨hresolved, hwidth, fun hmoves hsame hvisit hsent => ?_, fun hmoves hsame hnot => ?_,
    fun hnot => ?_⟩
  · by_cases hlater : (mibs id).selectorRegister ∈ tail.registerIds
    · exact hquiet hmoves hsame hlater hsent
    · -- visited before its linker, and not steered since
      have hregister := hkept hmoves hsame hlater
      rw [if_pos (hvisit.resolve_right hlater)] at hflagged
      rw [hregister, hflagged] at hsent ⊢
      exact ConfigureVisitor.visitRegister_quiet hsent
  · rw [not_or] at hnot
    rw [hkept hmoves hsame hnot.2, hflagged, if_neg hnot.1]
  · rw [not_or] at hnot
    have htouched := htouched hnot.2
    rwa [hflagged, if_neg hnot.1] at htouched

include hhead htail hvisited'

theorem Configured.append : Configured mibs algorithm nodes s s' where
  written id hid hnew := by
    rw [hsplits.registerIds, List.mem_append] at hid
    by_cases hlater : id ∈ tail.registerIds
    · exact htail.written id hlater hnew
    · by_cases hsteered : id ∈ regs'
      · obtain ⟨⟨linker, firstChild⟩, hlinker, rfl⟩ :=
          hapart.steered id (hid.resolve_right hlater) hsteered
        rcases (htail.linkers linker firstChild hlinker).touched hlater with hsame | hpending
        · rw [hsame] at hnew ⊢
          exact hhead.written _ (hid.resolve_right hlater) hnew
        · exact hpending
      · rw [hvisited'.registers_eq hsteered hlater] at hnew ⊢
        exact hhead.written id (hid.resolve_right hlater) hnew
  counts id firstChild hmem := by
    rw [hsplits.parents, List.mem_append] at hmem
    rcases hmem with hbefore | hlater
    · have hsame := hapart.below_eq hvisited' hbefore
      rw [hapart.counts id firstChild hbefore, Nodes.anyPending_congr hsame]
      exact hhead.counts id firstChild hbefore
    · exact htail.counts id firstChild hlater
  linkers id firstChild hmem := by
    rw [hsplits.linkers, List.mem_append] at hmem
    rcases hmem with hbefore | hlater
    · exact (hhead.linkers id firstChild hbefore).before hsplits hapart hvisited' hbefore
    · exact (htail.linkers id firstChild hlater).after hsplits hapart hvisited hlater

end Append

end Mast
