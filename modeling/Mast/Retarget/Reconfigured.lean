import Mast.Retarget.Visits

/-!
# A model that has been reconfigured

What the two passes over a model make of a state: the registers that no selector drives are flagged for what they have to write, and those of the selectors hold what has been decided about their linkers. The counts of the parent nodes are exact.
-/

namespace Mast

open Multiplexers Outcome

variable {mibs : Nat → Mib} {algorithm : ConfigureAlgorithm} {s s' : SystemModel}

namespace Nodes

/-- The selectors of a whole tree have their registers in it. -/
theorem Wired.selectorRegisters_subset {nodes : Nodes} (h : nodes.Wired mibs []) :
    nodes.selectorRegisters ⊆ nodes.registerIds := fun _ hreg =>
  (h.retargetable.selectorRegisters_subset hreg).resolve_left List.not_mem_nil

end Nodes

/-! ### The second pass -/

namespace PropagatePendingVisitor

/-- The second pass sets flags only. -/
theorem visitRegister_sameSetup (r : Register) : r.SameSetup (visitRegister r) := by
  unfold visitRegister
  split
  · exact ⟨rfl, rfl, rfl, rfl, rfl, rfl⟩
  · exact .refl r

theorem visitRegister_hasWidth {r : Register} {width : Nat} (h : r.HasWidth width) :
    (visitRegister r).HasWidth width := by
  unfold visitRegister
  split
  · exact ⟨h.nextToSut, h.lastToSut, h.bypass⟩
  · exact h

theorem visitRegister_nextToSut (r : Register) : (visitRegister r).nextToSut = r.nextToSut := by
  unfold visitRegister
  split <;> rfl

theorem visitRegister_lastToSut (r : Register) : (visitRegister r).lastToSut = r.lastToSut := by
  unfold visitRegister
  split <;> rfl

/-- A register that is flagged when it is to be written stays as pending as it is. -/
theorem visitRegister_isPending_of_written {r : Register}
    (hwritten : r.nextToSut ≠ r.lastToSut → r.pendingCount ≠ 0) :
    (visitRegister r).isPending = r.isPending := by
  unfold visitRegister
  split
  · have hpending := hwritten ‹_›
    simp [Register.isPending, Register.isPendingForWrite, Register.setPending, hpending]
  · rfl

/-- A register flagged in the first pass is not changed in the second. -/
theorem visitRegister_flagged (r : Register) :
    visitRegister (ConfigureVisitor.visitRegister r) = ConfigureVisitor.visitRegister r := by
  unfold visitRegister
  split
  · have hnew : r.nextToSut ≠ r.lastToSut := ‹_›
    simp [ConfigureVisitor.visitRegister, Register.setPendingForWrite, Register.setPending, hnew]
  · rfl

end PropagatePendingVisitor

theorem PropagatePendingVisitor.visit_identifierMapping (nodes : Nodes)
    (acc : SystemModel × Nat × Nat) :
    (visit nodes acc).1.identifierMapping = acc.1.identifierMapping := by
  induction nodes generalizing acc with
  | none => rfl
  | register id nextSibling ih => exact ih _
  | parent kind id firstChild nextSibling ihChild ihNext =>
    exact (ihNext _).trans (ihChild (acc.1, 0, 0))

theorem PropagatePendingVisitor.pendingIn_ne_zero {nodes : Nodes} :
    pendingIn s nodes.registerIds ≠ 0 ↔ nodes.anyPending s = true := by
  rw [pendingIn, Nodes.anyPending, ← Nat.pos_iff_ne_zero, List.countP_pos_iff, List.any_eq_true]

/-! ### Both passes -/

/-- What both passes over the channels of an access interface make of a state. -/
structure Reconfigured (mibs : Nat → Mib) (algorithm : ConfigureAlgorithm) (interface : Nat)
    (channels : Nodes) (s s' : SystemModel) : Prop where
  identifierMapping : s'.identifierMapping = s.identifierMapping
  steered (reg : Nat) : (s.registers reg).Steered (s'.registers reg)
  sameSetup : s.SameSetup s'
  others (reg : Nat) : reg ∉ channels.registerIds → s'.registers reg = s.registers reg
  flagged (reg : Nat) : reg ∈ channels.registerIds → reg ∉ channels.selectorRegisters →
    s'.registers reg = ConfigureVisitor.visitRegister (s.registers reg)
  decided (id : Nat) (firstChild : Nodes) : (id, firstChild) ∈ channels.linkers →
    Decided algorithm (mibs id) (firstChild.works s') True s s'
  written (reg : Nat) : reg ∈ channels.registerIds →
    (s'.registers reg).nextToSut ≠ (s'.registers reg).lastToSut →
    (s'.registers reg).isPending = true
  counts (id : Nat) (firstChild : Nodes) :
    (id, firstChild) ∈ (interface, channels) :: channels.parents →
    (s'.pendingCounts id ≠ 0 ↔ firstChild.anyPending s' = true)

open PropagatePendingVisitor SystemModelManager in
theorem configureModel_reconfigured {interface : Nat} {channels : Nodes}
    (hwired : channels.Wired mibs []) (hinterface : interface ∉ channels.parentIds)
    (hready : channels.Ready mibs s) :
    ∃ s', configureModel algorithm (.parent .accessInterface interface channels .none) s = .ok s' ∧
      Reconfigured mibs algorithm interface channels s s' := by
  have hpasses : ConfigureVisitor.Passes mibs algorithm channels :=
    ConfigureVisitor.visit_passed mibs algorithm channels
  obtain ⟨s₁, hvisit, hpassed⟩ := ConfigureVisitor.Passes.withoutPath hpasses hwired hready
  let root : Nodes := .parent .accessInterface interface channels .none
  let s₂ := s₁.setPendingCount interface (channels.tally s₁)
  obtain ⟨added, hpropagated⟩ := propagate_propagated root s₂
  have hrun : configureModel algorithm root s = .ok (propagate root s₂) := by
    have hroot : ConfigureVisitor.visit algorithm.create none root s = .ok s₂ :=
      bind_eq_ok.mpr ⟨s₁, hvisit, rfl⟩
    exact bind_eq_ok.mpr ⟨s₂, hroot, rfl⟩
  have hregisterIds : root.registerIds = channels.registerIds := List.append_nil _
  have hparents : root.parents = (interface, channels) :: channels.parents :=
    congrArg _ (List.append_nil _)
  have hnodup : root.parentIds.Nodup := by
    rw [show root.parentIds = interface :: channels.parentIds from congrArg _ (List.append_nil _)]
    exact List.nodup_cons.mpr ⟨hinterface, hwired.parents⟩
  have hregisters : ∀ reg, (propagate root s₂).registers reg =
      if reg ∈ channels.registerIds then visitRegister (s₁.registers reg)
      else s₁.registers reg := by
    intro reg
    rw [hpropagated.registers reg, hregisterIds]
    rfl
  have hselectors := hwired.selectorRegisters_subset
  have hflagged := hpassed.visited
  rw [show channels.selectorRegisters ++ ConfigureVisitor.Path.selectorRegisters none =
    channels.selectorRegisters from List.append_nil _] at hflagged
  have hpending : ∀ reg ∈ channels.registerIds,
      ((propagate root s₂).registers reg).isPending = (s₁.registers reg).isPending := by
    intro reg hreg
    rw [hregisters reg, if_pos hreg]
    exact visitRegister_isPending_of_written (hpassed.configured.written reg hreg)
  have hnext : ∀ reg, ((propagate root s₂).registers reg).nextToSut = (s₁.registers reg).nextToSut ∧
      ((propagate root s₂).registers reg).lastToSut = (s₁.registers reg).lastToSut := by
    intro reg
    rw [hregisters reg]
    split
    · exact ⟨visitRegister_nextToSut _, visitRegister_lastToSut _⟩
    · exact ⟨rfl, rfl⟩
  refine ⟨_, hrun, ⟨?_, ?_, ?_, ?_, ?_, ?_, ?_, ?_⟩⟩
  · exact (visit_identifierMapping root _).trans hpassed.visited.identifierMapping
  · intro reg
    exact (hpassed.visited.steered reg).trans (propagate_steered root s₂ reg)
  · intro reg
    refine (hpassed.sameSetup reg).trans ?_
    rw [hregisters reg]
    split
    · exact visitRegister_sameSetup _
    · exact .refl _
  · intro reg hreg
    rw [hregisters reg, if_neg hreg]
    exact hflagged.registers_eq (fun hselector => hreg (hselectors hselector)) hreg
  · intro reg hreg hselector
    rw [hregisters reg, if_pos hreg, hflagged.flagged reg hselector, if_pos hreg,
      visitRegister_flagged]
  · intro id firstChild hmem
    have hbelow := (Nodes.mem_parents (Nodes.linkers_subset channels hmem)).2
    have hreg := hselectors (Nodes.mem_selectorRegisters hwired.retargetable hmem)
    obtain ⟨hresolved, hwidth, hquiet, -, -⟩ := hpassed.configured.linkers id firstChild hmem
    rw [Nodes.works_of_isPending fun other hother => hpending other (hbelow hother)]
    refine ⟨?_, ?_, fun hmoves hsame _ hsent => ?_, fun _ _ hnot => absurd trivial hnot,
      fun hnot => absurd trivial hnot⟩
    · rw [(hnext _).1]
      exact hresolved
    · rw [hregisters, if_pos hreg]
      exact visitRegister_hasWidth hwidth
    · rw [(hnext _).1, (hnext _).2] at hsent
      rw [(hnext _).1] at hsame
      rw [hregisters, if_pos hreg, PropagatePendingVisitor.visitRegister,
        if_neg (not_not.mpr hsent)]
      exact hquiet hmoves hsame hreg hsent
  · intro reg hreg hnew
    rw [(hnext _).1, (hnext _).2] at hnew
    rw [hpending reg hreg]
    have hcount := hpassed.configured.written reg hreg hnew
    simp [Register.isPending, Register.isPendingForWrite, hcount]
  · intro id firstChild hmem
    rw [hpropagated.parents id firstChild hnodup (hparents ▸ hmem)]
    exact pendingIn_ne_zero

/-! ### The selectors of a configured model -/

theorem Nodes.Retargetable.paths_eq {nodes : Nodes} {siblings : List Nat}
    (h : nodes.Retargetable mibs siblings) {id : Nat} {firstChild : Nodes}
    (hmem : (id, firstChild) ∈ nodes.linkers) :
    firstChild.siblingsCount = (mibs id).paths := by
  induction nodes generalizing siblings with
  | none => exact absurd hmem List.not_mem_nil
  | register other nextSibling ih => exact ih h hmem
  | parent kind other child nextSibling ihChild ihNext =>
    cases kind with
    | linker p keepOpen =>
      obtain ⟨⟨-, -, -, hpaths⟩, hbelow, hnext⟩ := h
      rcases List.mem_cons.mp hmem with heq | hmem
      · obtain ⟨rfl, rfl⟩ := Prod.mk.inj heq
        exact hpaths
      · exact (List.mem_append.mp hmem).elim (ihChild hbelow) (ihNext hnext)
    | chain => exact (List.mem_append.mp hmem).elim (ihChild h.1) (ihNext h.2)
    | _ => exact h.elim

theorem Reconfigured.ready {interface : Nat} {channels : Nodes}
    (h : Reconfigured mibs algorithm interface channels s s') (hwired : channels.Wired mibs [])
    (hready : channels.Ready mibs s) : channels.Ready mibs s' := by
  intro id firstChild hmem
  have hdecided := h.decided id firstChild hmem
  refine ⟨hdecided.hasWidth, fun hupto => (hready id firstChild hmem).ordering ?_, ?_⟩
  · rwa [← (h.sameSetup _).bitsOrdering]
  · refine hdecided.resolved.proper (Multiplexer.proper_settle (hready id firstChild hmem).proper
      Nat.one_pos ?_)
    rw [Nodes.works_length, hwired.retargetable.paths_eq hmem, Nat.add_comm]

/-- Once a model has been configured, a linker with something pending below has it on a path that is active or selected. The others are at their closed values. -/
theorem SystemModelManager.configure_selects {interface : Nat} {channels : Nodes}
    (algorithm : ConfigureAlgorithm) (hwired : channels.Wired mibs [])
    (hinterface : interface ∉ channels.parentIds) (hready : channels.Ready mibs s) :
    ∃ s', configureModel algorithm (.parent .accessInterface interface channels .none) s = .ok s' ∧
      ∀ id firstChild, (id, firstChild) ∈ channels.linkers →
        (firstChild.anyPending s' = false →
          (s'.registers (mibs id).selectorRegister).nextToSut = (mibs id).closedValue) ∧
        (firstChild.anyPending s' = true →
          ∃ k, ∃ (hk : k < (firstChild.works s').length), (firstChild.works s')[k] = true ∧
            ((mibs id).selector.isActive s' (k + 1) = .ok true ∨
              (mibs id).selector.isSelected s' (k + 1) = .ok true)) := by
  obtain ⟨s', hconfigure, hconfigured⟩ : ∃ s', configureModel algorithm _ s = .ok s' ∧
    Reconfigured mibs algorithm interface channels s s' :=
    configureModel_reconfigured hwired hinterface hready
  refine ⟨s', hconfigure, fun id firstChild hmem => ⟨fun hidle => ?_, fun hpending => ?_⟩⟩
  all_goals
    have hproper := (hready id firstChild hmem).proper
    have hresolved := (hconfigured.decided id firstChild hmem).resolved
    have hpaths : (firstChild.works s').length = (mibs id).paths := by
      rw [Nodes.works_length, hwired.retargetable.paths_eq hmem]
  · rw [← Mib.lever_closed]
    exact hresolved.closed hproper hpaths (Nodes.works_idle hidle)
  · have hmux := (hconfigured.ready hwired hready id firstChild hmem).mux
    have hle : ∀ {k}, k < (firstChild.works s').length → k + 1 ≤ (mibs id).pathsCount :=
      fun hk => (Nat.succ_le_of_lt (hpaths ▸ hk)).trans (mibs id).paths_le
    rw [← (hconfigured.steered _).lastToSut] at hresolved
    by_cases hactive : ∃ k, ∃ (hk : k < (firstChild.works s').length),
        (firstChild.works s')[k] = true ∧ (mibs id).lever.opens
          (s'.registers (mibs id).selectorRegister).lastToSut (k + 1) = true
    · obtain ⟨k, hk, hwork, hopen⟩ := hactive
      refine ⟨k, hk, hwork, .inl ?_⟩
      rw [Mib.selector_isActive hmux (hle hk), hopen]
    · rw [← Nodes.works_any, List.any_eq_true] at hpending
      obtain ⟨work, hmemWork, hwork⟩ := hpending
      obtain ⟨k, hk, rfl⟩ := List.getElem_of_mem hmemWork
      unfold Mib.settled at hresolved
      rw [← (hconfigured.steered _).lastToSut] at hresolved
      obtain ⟨j, hj, hworkj, hopen⟩ := hresolved.opens hproper hpaths ⟨k, hk, hwork⟩
        fun i hi hworki => Bool.eq_false_iff.mpr fun hopeni => hactive ⟨i, hi, hworki, hopeni⟩
      refine ⟨j, hj, hworkj, .inr ?_⟩
      rw [Mib.selector_isSelected hmux (hle hj), hopen]

/-! ### A segment behind a segment -/

def segmentMib (selectorRegister : Nat) : Mib where
  kind := .oneHot
  properties := ⟨true, false, false, false⟩
  selectorRegister := selectorRegister
  width := 1
  pathsCount := 1
  paths := 1
  pathsCount_pos := Nat.one_pos
  paths_le := Nat.le_refl 1
  builds :=
    { vectors := by decide
      binary := fun hkind => by cases hkind
      startAtZero := fun _ _ => Nat.le_refl 1
      loop := by decide
      deselectTable := fun _ _ => by decide }
  registerLength := rfl
  nHot hkind := by cases hkind

def nestedMibs (id : Nat) : Mib := segmentMib (if id = 1 then 0 else 1)

/-- Register 0 opens the segment with register 1, which opens the segment with register 2. -/
def nestedSegments : Nodes :=
  .parent .chain 0
    (.register 0 (.parent (.linker (segmentMib 0).selector false) 1
      (.parent .chain 2
        (.register 1 (.parent (.linker (segmentMib 1).selector false) 3 (.register 2 .none) .none))
        .none) .none)) .none

/-- Both segments are closed, and the inner register has been written. -/
def nestedWritten : SystemModel where
  identifierMapping := [.register, .register, .register]
  registers id :=
    if id = 2 then { Register.create "leaf" [false] false .downto with
      nextToSut := [true]
      nextToSut_length := fun _ => rfl }
    else .create "SIB" [false] false .downto
  pendingCounts _ := 0
  iRunLoopCounts _ := 0

theorem nestedSegments_wired : nestedSegments.Wired nestedMibs [] where
  retargetable := by
    have hinner : (Nodes.register 1 (.parent (.linker (segmentMib 1).selector false) 3
        (.register 2 .none) .none)).Retargetable nestedMibs [1] :=
      ⟨⟨rfl, rfl, List.mem_cons_self, rfl⟩, trivial, trivial⟩
    exact ⟨⟨⟨rfl, rfl, List.mem_cons_self, rfl⟩, ⟨hinner, trivial⟩, trivial⟩, trivial⟩
  registers := by decide
  parents := by decide
  selectors := by decide
  beside _ hreg := absurd hreg List.not_mem_nil

theorem nestedWritten_ready : nestedSegments.Ready nestedMibs nestedWritten := by
  intro id firstChild hmem
  have hproper : ∀ reg, (segmentMib reg).lever.Proper [false] := by
    intro reg
    have hclosed := (segmentMib reg).lever.proper_closed
    rwa [Mib.lever_closed] at hclosed
  have hsib : ∀ reg, reg ≠ 2 →
      nestedWritten.registers reg = .create "SIB" [false] false .downto :=
    fun reg hreg => if_neg hreg
  have hregister : (nestedMibs id).selectorRegister ≠ 2 := by
    unfold nestedMibs segmentMib
    split <;> decide
  refine ⟨?_, ?_, ?_⟩ <;> rw [hsib _ hregister]
  · exact ⟨rfl, rfl, rfl⟩
  · exact fun hupto => by cases hupto
  · exact hproper _

theorem nestedSegments_selects :
    ∃ s', SystemModelManager.configureModel .closeAll
        (.parent .accessInterface 4 nestedSegments .none) nestedWritten = .ok s' ∧
      ∀ id firstChild, (id, firstChild) ∈ nestedSegments.linkers →
        (firstChild.anyPending s' = false →
          (s'.registers (nestedMibs id).selectorRegister).nextToSut = (nestedMibs id).closedValue) ∧
        (firstChild.anyPending s' = true →
          ∃ k, ∃ (hk : k < (firstChild.works s').length), (firstChild.works s')[k] = true ∧
            ((nestedMibs id).selector.isActive s' (k + 1) = .ok true ∨
              (nestedMibs id).selector.isSelected s' (k + 1) = .ok true)) :=
  SystemModelManager.configure_selects .closeAll nestedSegments_wired (by decide)
    nestedWritten_ready

end Mast
