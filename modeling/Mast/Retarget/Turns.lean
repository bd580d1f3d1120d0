import Mast.Retarget.Parts

/-!
# A turn of the loop

A data cycle between two configurations serves the registers that are reached and leaves the others alone. What is left to do falls at every node that is reached, unless nothing is left there, and grows nowhere.
-/

namespace Mast

open Multiplexers Outcome

structure Serves (served : List Nat) (s s' : SystemModel) : Prop where
  serves (reg : Nat) : reg ∈ served →
    ∃ received, (s.registers reg).Served (s'.registers reg) received
  waits (reg : Nat) : reg ∉ served → s'.registers reg = s.registers reg
  bitsOrdering (reg : Nat) : (s'.registers reg).bitsOrdering = (s.registers reg).bitsOrdering
  identifierMapping : s'.identifierMapping = s.identifierMapping
  pendingCounts : s'.pendingCounts = s.pendingCounts

theorem Serves.nextToSut {served : List Nat} {s s' : SystemModel} (h : Serves served s s')
    (reg : Nat) : (s'.registers reg).nextToSut = (s.registers reg).nextToSut := by
  by_cases hserved : reg ∈ served
  · obtain ⟨received, hregister⟩ := h.serves reg hserved
    exact hregister.nextToSut
  · rw [h.waits reg hserved]

/-- A configured model, the model after a data cycle that serves some registers, and the model once it has been configured again. -/
structure Turn (mibs : Nat → Mib) (algorithm : ConfigureAlgorithm) (interface : Nat)
    (channels : Nodes) (served : List Nat) (before configured updated reconfigured : SystemModel) :
    Prop where
  wired : channels.Wired mibs []
  ready : channels.Ready mibs before
  configures : Reconfigured mibs algorithm interface channels before configured
  cycle : Serves served configured updated
  reconfigures : Reconfigured mibs algorithm interface channels updated reconfigured

namespace Nodes

/-- All the registers among siblings that are all visited are reached. -/
theorem sibling_reached {mibs : Nat → Mib} {s : SystemModel} {nodes : Nodes} {gate : Nat → Bool}
    {i reg : Nat} (hgate : ∀ j, gate j = true) (hreg : reg ∈ nodes.siblingRegisters) :
    reg ∈ nodes.reached mibs s gate i := by
  induction nodes generalizing i with
  | none => exact absurd hreg List.not_mem_nil
  | register id nextSibling ih =>
    rw [reached, hgate i, if_pos rfl]
    rcases List.mem_cons.mp hreg with rfl | hlater
    · exact List.mem_append_left _ List.mem_cons_self
    · exact List.mem_append_right _ (ih hlater)
  | parent kind id firstChild nextSibling _ ih =>
    cases kind <;> exact List.mem_append_right _ (ih hreg)

end Nodes

namespace Turn

variable {mibs : Nat → Mib} {algorithm : ConfigureAlgorithm} {interface : Nat} {channels : Nodes}
  {served : List Nat} {before configured updated reconfigured : SystemModel}
  (h : Turn mibs algorithm interface channels served before configured updated reconfigured)
include h

theorem register_falls {reg : Nat} (hreg : reg ∈ channels.registerIds)
    (hfree : reg ∉ channels.selectorRegisters) :
    (reconfigured.registers reg).pendings ≤ (configured.registers reg).pendings ∧
      (reg ∈ served → (reconfigured.registers reg).pendings = 0) := by
  have hfirst := h.configures.flagged reg hreg hfree
  have hsecond := h.reconfigures.flagged reg hreg hfree
  by_cases hserved : reg ∈ served
  · obtain ⟨received, hregister⟩ := h.cycle.serves reg hserved
    have hdone : (reconfigured.registers reg).isPending = false := by
      rw [hsecond, ← Bool.not_eq_true, ConfigureVisitor.visitRegister_isPending, Register.HasWork,
        hregister.pendingRead, hregister.lastToSut, hregister.nextToSut]
      simp
    have hzero : (reconfigured.registers reg).pendings = 0 := by
      rw [Register.pendings, hdone]
      rfl
    exact ⟨hzero ▸ Nat.zero_le _, fun _ => hzero⟩
  · rw [hsecond, h.cycle.waits reg hserved, hfirst, ConfigureVisitor.visitRegister_visitRegister]
    exact ⟨Nat.le_refl _, fun hmem => absurd hmem hserved⟩

section Linker

variable {id : Nat} {firstChild : Nodes} (hmem : (id, firstChild) ∈ channels.linkers)
  (hbelow : firstChild.Wired mibs []) (hclosed : firstChild.Closed channels.selectorRegisters)
  (hpaths : firstChild.siblingsCount = (mibs id).paths)
include hmem hbelow hclosed hpaths

omit hmem hpaths h in
theorem works_idle {s : SystemModel}
    (hidle : (firstChild.parts mibs channels.selectorRegisters s).sum = 0) :
    ∀ work ∈ firstChild.works s, work = false := by
  refine Nodes.works_idle (Bool.eq_false_iff.mpr fun hpending => ?_)
  rw [← Nodes.parts_sum_iff hbelow.retargetable hclosed hbelow.selectorRegisters_subset] at hpending
  exact hpending hidle

theorem closes (hidle : (firstChild.parts mibs channels.selectorRegisters configured).sum = 0) :
    (configured.registers (mibs id).selectorRegister).nextToSut = (mibs id).lever.closed := by
  have hdecided := h.configures.decided id firstChild hmem
  refine Multiplexer.Resolved.closed (h.ready id firstChild hmem).proper ?_ hdecided.resolved
    (works_idle hbelow hclosed hidle)
  rw [Nodes.works_length, hpaths]

theorem rests
    (hidle : (firstChild.parts mibs channels.selectorRegisters configured).sum = 0)
    (hidle' : (firstChild.parts mibs channels.selectorRegisters reconfigured).sum = 0) :
    (reconfigured.registers (mibs id).selectorRegister).pendings ≤
        (configured.registers (mibs id).selectorRegister).pendings ∧
      ((mibs id).selectorRegister ∈ served →
        (reconfigured.registers (mibs id).selectorRegister).pendings = 0) := by
  let reg := (mibs id).selectorRegister
  have hclosed₁ : (configured.registers reg).nextToSut = (mibs id).lever.closed :=
    h.closes hmem hbelow hclosed hpaths hidle
  have hworks := works_idle hbelow hclosed hidle'
  have hdecided := h.reconfigures.decided id firstChild hmem
  have hlength : (firstChild.works reconfigured).length = (mibs id).paths := by
    rw [Nodes.works_length, hpaths]
  have hnext : (updated.registers reg).nextToSut = (mibs id).lever.closed :=
    (h.cycle.nextToSut reg).trans hclosed₁
  have hclosed₂ : (reconfigured.registers reg).nextToSut = (mibs id).lever.closed := by
    have hproper : (mibs id).lever.Proper (updated.registers reg).nextToSut := by
      rw [hnext]
      exact (mibs id).lever.proper_closed
    exact Multiplexer.Resolved.closed hproper hlength hdecided.resolved hworks
  have hstill : (mibs id).moves algorithm updated 1 (firstChild.works reconfigured) = false := by
    unfold Mib.moves
    rw [hnext]
    exact Multiplexer.not_moves_closed Nat.one_pos (by omega) hworks
  have hquiet : (reconfigured.registers reg).nextToSut = (reconfigured.registers reg).lastToSut →
      (reconfigured.registers reg).pendingCount = 0 :=
    hdecided.quiet hstill (hclosed₂.trans hnext.symm) trivial
  have hlast := (h.reconfigures.steered reg).lastToSut
  have hread := (h.reconfigures.steered reg).pendingRead
  by_cases hserved : reg ∈ served
  · obtain ⟨received, hregister⟩ := h.cycle.serves reg hserved
    have hsent : (reconfigured.registers reg).nextToSut =
        (reconfigured.registers reg).lastToSut := by
      rw [hlast, hregister.lastToSut, hclosed₂, hclosed₁]
    have hzero : (reconfigured.registers reg).pendings = 0 := by
      rw [Register.pendings, Register.isPending, Register.isPendingForWrite, hquiet hsent, hread,
        hregister.pendingRead]
      rfl
    exact ⟨hzero ▸ Nat.zero_le _, fun _ => hzero⟩
  · refine ⟨?_, fun hmem => absurd hmem hserved⟩
    have hsame := h.cycle.waits reg hserved
    rw [hsame] at hlast hread
    by_cases hsent : (reconfigured.registers reg).nextToSut = (reconfigured.registers reg).lastToSut
    · -- only a read may be pending, as before
      change (reconfigured.registers reg).pendings ≤ (configured.registers reg).pendings
      unfold Register.pendings Register.isPending Register.isPendingForWrite
      rw [hquiet hsent, hread]
      cases (configured.registers reg).pendingRead <;> simp
    · have hwritten : (configured.registers reg).isPending = true := by
        refine h.configures.written reg ?_ ?_
        · exact h.wired.selectorRegisters_subset
            (Nodes.mem_selectorRegisters h.wired.retargetable hmem)
        · rwa [hclosed₁, ← hclosed₂, ← hlast]
      have hone : (configured.registers reg).pendings = 1 := if_pos hwritten
      change (reconfigured.registers reg).pendings ≤ (configured.registers reg).pendings
      rw [hone, Register.pendings]
      split <;> omega

/-- What is left to do at a linker that is reached. -/
theorem linker_falls {active : Bool} (hactive : (mibs id).selectorRegister ∈ served ↔ active = true)
    (hfalls : Falls (fun j => active &&
        (mibs id).lever.opens (configured.registers (mibs id).selectorRegister).lastToSut j) 1
      (firstChild.parts mibs channels.selectorRegisters configured)
      (firstChild.parts mibs channels.selectorRegisters reconfigured)) :
    weight (reconfigured.registers (mibs id).selectorRegister).pendings
          ((mibs id).lever.opens (reconfigured.registers (mibs id).selectorRegister).lastToSut)
          (firstChild.parts mibs channels.selectorRegisters reconfigured) ≤
        weight (configured.registers (mibs id).selectorRegister).pendings
          ((mibs id).lever.opens (configured.registers (mibs id).selectorRegister).lastToSut)
          (firstChild.parts mibs channels.selectorRegisters configured) ∧
      (active = true →
        weight (configured.registers (mibs id).selectorRegister).pendings
          ((mibs id).lever.opens (configured.registers (mibs id).selectorRegister).lastToSut)
          (firstChild.parts mibs channels.selectorRegisters configured) ≠ 0 →
        weight (reconfigured.registers (mibs id).selectorRegister).pendings
          ((mibs id).lever.opens (reconfigured.registers (mibs id).selectorRegister).lastToSut)
          (firstChild.parts mibs channels.selectorRegisters reconfigured) <
        weight (configured.registers (mibs id).selectorRegister).pendings
          ((mibs id).lever.opens (configured.registers (mibs id).selectorRegister).lastToSut)
          (firstChild.parts mibs channels.selectorRegisters configured)) := by
  have hlast := (h.reconfigures.steered (mibs id).selectorRegister).lastToSut
  refine weight_falls hfalls (fun hon hleft hshut => ?_) (fun hoff => ?_) (fun hidle => ?_) ?_
  · -- the register is served, so the paths chosen last are open now
    obtain ⟨received, hregister⟩ := h.cycle.serves _ (hactive.mpr hon)
    rw [hlast, hregister.lastToSut]
    have hresolved := (h.configures.decided id firstChild hmem).resolved
    unfold Mib.settled at hresolved
    rw [← (h.configures.steered (mibs id).selectorRegister).lastToSut,
      Nodes.works_eq_parts hbelow hclosed] at hresolved
    refine hresolved.opens_left (h.ready id firstChild hmem).proper ?_ hleft hshut
    rw [Nodes.parts_length, hpaths]
  · have hwaits : (mibs id).selectorRegister ∉ served := fun hserved => by
      rw [hactive.mp hserved] at hoff
      cases hoff
    rw [hlast, h.cycle.waits _ hwaits]
  · have hidle' : (firstChild.parts mibs channels.selectorRegisters reconfigured).sum = 0 :=
      Nat.le_zero.mp (hidle ▸ hfalls.sum_le)
    obtain ⟨hle, hzero⟩ := h.rests hmem hbelow hclosed hpaths hidle hidle'
    refine ⟨hle, fun hon hown => ?_⟩
    rw [hzero (hactive.mpr hon)]
    exact Nat.pos_of_ne_zero hown
  · unfold Register.pendings
    split <;> omega

end Linker

/-! ### All nodes -/

omit h in
/-- What is served below a parent node and after it. -/
theorem served_parent {kind : ParentKind} {id : Nat} {firstChild nextSibling : Nodes}
    {siblings below rest : List Nat} {active visited : Bool}
    (hwired : (Nodes.parent kind id firstChild nextSibling).Wired mibs siblings)
    (hbelow : below ⊆ firstChild.registerIds) (hrest : rest ⊆ nextSibling.registerIds)
    (hserved : ∀ reg ∈ firstChild.registerIds ++ nextSibling.registerIds,
      (reg ∈ served ↔ active = true ∧ reg ∈ (if visited then below else []) ++ rest)) :
    (∀ reg ∈ firstChild.registerIds,
      (reg ∈ served ↔ (active && visited) = true ∧ reg ∈ below)) ∧
    ∀ reg ∈ nextSibling.registerIds, (reg ∈ served ↔ active = true ∧ reg ∈ rest) := by
  refine ⟨fun reg hreg => ?_, fun reg hreg => ?_⟩
  · have hlater : reg ∉ rest := fun hmem => hwired.apart hreg (hrest hmem)
    rw [hserved reg (List.mem_append_left _ hreg), List.mem_append, or_iff_left hlater,
      Bool.and_eq_true, and_assoc]
    refine and_congr_right fun _ => ?_
    cases visited <;> simp
  · rw [hserved reg (List.mem_append_right _ hreg), List.mem_append]
    refine and_congr_right fun _ => or_iff_right fun hfirst => ?_
    split at hfirst
    · exact hwired.apart (hbelow hfirst) hreg
    · exact List.not_mem_nil hfirst

/-- What is left to do among siblings falls where it is reached. -/
theorem falls {nodes : Nodes} {siblings : List Nat} {active : Bool} {gate : Nat → Bool} {i : Nat}
    (hwired : nodes.Wired mibs siblings) (hwithin : nodes.Within channels)
    (hserved : ∀ reg ∈ nodes.registerIds,
      (reg ∈ served ↔ active = true ∧ reg ∈ nodes.reached mibs configured gate i))
    (hbeside : ∀ reg ∈ siblings, ∀ j, (reg ∈ served ↔ (active && gate j) = true)) :
    Falls (fun j => active && gate j) i (nodes.parts mibs channels.selectorRegisters configured)
      (nodes.parts mibs channels.selectorRegisters reconfigured) := by
  induction nodes generalizing siblings active gate i with
  | none => exact .nil
  | register id nextSibling ih =>
    have hfresh := (List.nodup_cons.mp hwired.registers).1
    have hregister : id ∈ channels.registerIds := hwithin.registerIds List.mem_cons_self
    have hwithinNext := ((Nodes.Splits.register id nextSibling).within hwithin).2
    refine .cons ?_ ?_ (ih hwired.afterRegister hwithinNext (fun reg hreg => ?_) hbeside)
    · split
      · exact Nat.le_refl _
      · exact (h.register_falls hregister ‹_›).1
    · intro hreached hleft
      split
      · rw [if_pos ‹_›] at hleft
        exact absurd rfl hleft
      · rw [if_neg ‹_›] at hleft
        rw [Bool.and_eq_true] at hreached
        have hmem : id ∈ served := (hserved id List.mem_cons_self).mpr
          ⟨hreached.1, by
            rw [Nodes.reached, hreached.2, if_pos rfl]
            exact List.mem_append_left _ List.mem_cons_self⟩
        rw [(h.register_falls hregister ‹_›).2 hmem]
        exact Nat.pos_of_ne_zero hleft
    · rw [hserved reg (List.mem_cons_of_mem _ hreg), Nodes.reached, List.mem_append]
      refine and_congr_right fun _ => or_iff_right fun hfirst => ?_
      split at hfirst
      · rw [List.mem_singleton.mp hfirst] at hreg
        exact hfresh hreg
      · exact List.not_mem_nil hfirst
  | parent kind id firstChild nextSibling ihChild ihNext =>
    have hwithinNext := ((Nodes.Splits.parent kind id firstChild nextSibling).within hwithin).2
    have hwithinChild := hwithin.child
    have hclosed : firstChild.Closed channels.selectorRegisters :=
      h.wired.closed_below (hwithin.parents List.mem_cons_self)
    cases kind with
    | linker p keepOpen =>
      obtain ⟨⟨-, -, hregister, hpaths⟩, hretargetable, -⟩ := hwired.retargetable
      have hbelow := hwired.child [] hretargetable fun _ hreg => absurd hreg List.not_mem_nil
      have hmem : (id, firstChild) ∈ channels.linkers := hwithin.linkers List.mem_cons_self
      obtain ⟨hservedChild, hservedNext⟩ :=
        served_parent hwired Nodes.reached_subset Nodes.reached_subset hserved
      have hchild := ihChild hbelow hwithinChild hservedChild
        fun reg hreg => absurd hreg List.not_mem_nil
      obtain ⟨hle, hlt⟩ := h.linker_falls hmem hbelow hclosed hpaths
        (hbeside _ hregister i) hchild
      exact .cons hle hlt (ihNext hwired.afterParent hwithinNext hservedNext hbeside)
    | chain =>
      have hbelow := hwired.child _ hwired.retargetable.1 fun _ hreg => hreg
      obtain ⟨hservedChild, hservedNext⟩ :=
        served_parent hwired Nodes.reached_subset Nodes.reached_subset hserved
      have hchild : Falls (fun _ => active && gate i && true) 1
          (firstChild.parts mibs channels.selectorRegisters configured)
          (firstChild.parts mibs channels.selectorRegisters reconfigured) :=
        ihChild hbelow hwithinChild hservedChild
          fun reg hreg j => by
            rw [hservedChild reg (Nodes.siblingRegisters_subset _ hreg), Bool.and_true]
            exact and_iff_left (Nodes.sibling_reached (fun _ => rfl) hreg)
      refine .cons hchild.sum_le (fun hreached hleft => ?_)
        (ihNext hwired.afterParent hwithinNext hservedNext hbeside)
      exact hchild.sum_lt_of_all (fun j => by rw [hreached, Bool.and_true]) hleft
    | _ => exact hwired.retargetable.elim

omit h in
theorem isPending_of_part {nodes head tail : Nodes} {part : Nat} (hsplits : nodes.Splits head tail)
    (hwired : head.Wired mibs []) (hclosed : head.Closed channels.selectorRegisters)
    (hcounts : ∀ id firstChild, (id, firstChild) ∈ head.parents →
      (configured.pendingCounts id ≠ 0 ↔ firstChild.anyPending configured = true))
    (hpart : head.parts mibs channels.selectorRegisters configured = [part]) (hleft : part ≠ 0) :
    head.isPending configured = true := by
  have hworks := Nodes.works_eq_parts (s := configured) hwired hclosed
  rw [hpart, List.map_singleton, decide_eq_true hleft] at hworks
  cases hsplits with
  | register id nextSibling => exact List.head_eq_of_cons_eq hworks
  | parent kind id firstChild nextSibling =>
    have hpending : firstChild.anyPending configured = true := List.head_eq_of_cons_eq hworks
    exact decide_eq_true ((hcounts id firstChild List.mem_cons_self).mpr hpending)

/-- What is left to do in the channels falls in each of them. -/
theorem channels_fall (nodes : Nodes) {i : Nat} (hwired : nodes.Wired mibs [])
    (hwithin : nodes.Within channels) (hclosed : nodes.Closed channels.selectorRegisters)
    (hserved : ∀ reg ∈ nodes.registerIds, (reg ∈ served ↔ reg ∈ nodes.served mibs configured)) :
    Falls (fun _ => true) i (nodes.parts mibs channels.selectorRegisters configured)
      (nodes.parts mibs channels.selectorRegisters reconfigured) := by
  induction nodes using Nodes.splits_induction generalizing i with
  | none => exact .nil
  | @splits nodes head tail hsplits ih =>
    obtain ⟨hwithinHead, hwithinTail⟩ := hsplits.within hwithin
    obtain ⟨hclosedHead, hclosedTail⟩ := hsplits.closed hwired hclosed
    have hwiredHead := hsplits.wired_head hwired
    have hreached : ∀ reg ∈ nodes.registerIds, (reg ∈ served ↔
        head.isPending configured = true ∧
          reg ∈ head.reached mibs configured (fun _ => true) 1 ∨
        reg ∈ tail.served mibs configured) := by
      intro reg hreg
      rw [hserved reg hreg, hsplits.served, List.mem_append]
      refine or_congr_left ?_
      split <;> simp [*]
    have hfirst : Falls (fun _ => head.isPending configured && true) 1
        (head.parts mibs channels.selectorRegisters configured)
        (head.parts mibs channels.selectorRegisters reconfigured) := by
      refine h.falls hwiredHead hwithinHead (fun reg hreg => ?_)
        fun reg hreg => absurd hreg List.not_mem_nil
      rw [hreached reg (hsplits.registerIds ▸ List.mem_append_left _ hreg)]
      exact or_iff_left fun hlater => hsplits.apart hwired hreg (Nodes.served_subset hlater)
    obtain ⟨part, hpart, hparts⟩ :
      ∃ part, head.parts mibs channels.selectorRegisters configured = [part] ∧ _ := hsplits.parts
    obtain ⟨part', hpart', hparts'⟩ :
      ∃ part, head.parts mibs channels.selectorRegisters reconfigured = [part] ∧ _ := hsplits.parts
    rw [hpart, hpart'] at hfirst
    rw [hparts, hparts']
    obtain ⟨hle, hlt⟩ : part' ≤ part ∧
        ((head.isPending configured && true) = true → part ≠ 0 → part' < part) := by
      cases hfirst with
      | cons hle hlt _ => exact ⟨hle, hlt⟩
    refine .cons hle (fun _ hleft => hlt ?_ hleft)
      (ih (hsplits.wired hwired) hwithinTail hclosedTail fun reg hreg => ?_)
    · rw [Bool.and_true]
      exact isPending_of_part hsplits hwiredHead hclosedHead (fun id firstChild hmem =>
        h.configures.counts id firstChild (List.mem_cons_of_mem _ (hwithinHead.parents hmem)))
        hpart hleft
    · rw [hreached reg (hsplits.registerIds ▸ List.mem_append_right _ hreg)]
      exact or_iff_right fun hfirst => hsplits.apart hwired (Nodes.reached_subset hfirst.2) hreg

end Turn

end Mast
