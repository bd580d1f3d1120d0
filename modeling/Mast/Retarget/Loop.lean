import Mast.Retarget.Cycles

/-!
# The loop ends

`DoDataCycles_Impl` on a tree of MIBs: whichever algorithm configures it and whatever comes back from the device, after finitely many data cycles nothing is pending. Then every register has been sent its value, and the selectors are back at their closed values. How many cycles there are at most can be read off the tree.
-/

namespace Mast

open Multiplexers Outcome

variable {mibs : Nat → Mib} {algorithm : ConfigureAlgorithm} {interface : Nat} {channels : Nodes}
  {s s' : SystemModel}

/-! ### What stays -/

theorem FromSutUpdater.width_of_bitsCount {ids : List Nat}
    (hsame : ∀ id ∈ ids, (s'.registers id).bitsCount = (s.registers id).bitsCount) :
    width s' ids = width s ids := by
  unfold width
  rw [List.map_congr_left hsame]

namespace Reconfigured

variable (h : Reconfigured mibs algorithm interface channels s s') (hwired : channels.Wired mibs [])
  (hready : channels.Ready mibs s)
include h hwired hready

theorem bitsCount_eq {reg : Nat} (hreg : reg ∈ channels.registerIds) :
    (s'.registers reg).bitsCount = (s.registers reg).bitsCount := by
  by_cases hselector : reg ∈ channels.selectorRegisters
  · obtain ⟨⟨id, firstChild⟩, hmem, rfl⟩ := Nodes.exists_linker hwired.retargetable hselector
    have hbefore := (hready id firstChild hmem).hasWidth.bypass
    have hafter := (h.decided id firstChild hmem).hasWidth.bypass
    exact hafter.trans hbefore.symm
  · rw [h.flagged reg hreg hselector]
    rfl

theorem scannable (hscannable : channels.Scannable s) : channels.Scannable s' where
  isRegister reg hreg := by
    rw [SystemModel.IsRegister, h.identifierMapping]
    exact hscannable.isRegister reg hreg
  shiftable reg hreg := by
    have hwidth := h.bitsCount_eq hwired hready hreg
    obtain ⟨hnext, hpos, hcomparable⟩ := hscannable.shiftable reg hreg
    refine ⟨?_, hwidth ▸ hpos, fun hcheck => ?_, fun hcheck hmask => ?_⟩
    · by_cases hselector : reg ∈ channels.selectorRegisters
      · obtain ⟨⟨id, firstChild⟩, hmem, rfl⟩ := Nodes.exists_linker hwired.retargetable hselector
        have hafter := (h.decided id firstChild hmem).hasWidth
        exact hafter.nextToSut.trans hafter.bypass.symm
      · rw [h.flagged reg hreg hselector]
        exact hnext
    · rw [(h.sameSetup reg).mustCheckExpected] at hcheck
      rw [(h.sameSetup reg).expectedFromSut, hwidth]
      exact hcomparable.expectedFromSut hcheck
    · rw [(h.sameSetup reg).mustCheckExpected] at hcheck
      rw [(h.sameSetup reg).dontCareMask] at hmask ⊢
      rw [hwidth]
      exact hcomparable.dontCareMask hcheck hmask
  width_lt := by
    rw [FromSutUpdater.width_of_bitsCount fun reg hreg => h.bitsCount_eq hwired hready hreg]
    exact hscannable.width_lt

end Reconfigured

namespace Serves

variable {served : List Nat} (h : Serves served s s')
include h

theorem lastToSut_or (reg : Nat) :
    (s'.registers reg).lastToSut = (s'.registers reg).nextToSut ∨
      (s'.registers reg).lastToSut = (s.registers reg).lastToSut := by
  by_cases hreg : reg ∈ served
  · obtain ⟨received, hregister⟩ := h.serves reg hreg
    exact .inl (hregister.lastToSut.trans hregister.nextToSut.symm)
  · rw [h.waits reg hreg]
    exact .inr rfl

theorem bypass (reg : Nat) : (s'.registers reg).bypass = (s.registers reg).bypass := by
  by_cases hreg : reg ∈ served
  · obtain ⟨received, hregister⟩ := h.serves reg hreg
    exact hregister.bypass
  · rw [h.waits reg hreg]

theorem ready (hready : channels.Ready mibs s) : channels.Ready mibs s' := by
  intro id firstChild hmem
  obtain ⟨hwidth, hordering, hproper⟩ := hready id firstChild hmem
  refine ⟨⟨?_, ?_, ?_⟩, ?_, ?_⟩
  · rw [h.nextToSut]
    exact hwidth.nextToSut
  · rcases h.lastToSut_or (mibs id).selectorRegister with hsent | hsame
    · rw [hsent, h.nextToSut]
      exact hwidth.nextToSut
    · rw [hsame]
      exact hwidth.lastToSut
  · rw [h.bypass]
    exact hwidth.bypass
  · rwa [h.bitsOrdering]
  · rwa [h.nextToSut]

theorem scannable (hscannable : channels.Scannable s) : channels.Scannable s' where
  isRegister reg hreg := by
    rw [SystemModel.IsRegister, h.identifierMapping]
    exact hscannable.isRegister reg hreg
  shiftable reg hreg := by
    by_cases hmem : reg ∈ served
    · obtain ⟨received, hregister⟩ := h.serves reg hmem
      obtain ⟨hnext, hpos, -⟩ := hscannable.shiftable reg hreg
      refine ⟨?_, ?_, fun hcheck => ?_, fun hcheck => ?_⟩
      · rw [hregister.nextToSut, Register.bitsCount, hregister.bypass]
        exact hnext
      · rw [Register.bitsCount, hregister.bypass]
        exact hpos
      all_goals
        rw [hregister.mustCheckExpected] at hcheck
        cases hcheck
    · rw [h.waits reg hmem]
      exact hscannable.shiftable reg hreg
  width_lt := by
    rw [FromSutUpdater.width_of_bitsCount fun reg _ => congrArg List.length (h.bypass reg)]
    exact hscannable.width_lt

end Serves

/-! ### How many cycles there are -/

/-- How often something can be left to do among siblings. -/
def Nodes.budget : Nodes → Nat
  | none => 0
  | register _ nextSibling => nextSibling.budget + 1
  | parent (.linker _ _) _ firstChild nextSibling =>
    2 * firstChild.budget + 2 + nextSibling.budget
  | parent _ _ firstChild nextSibling => firstChild.budget + nextSibling.budget

theorem Register.pendings_le_one (r : Register) : r.pendings ≤ 1 := by
  unfold Register.pendings
  split <;> omega

theorem Nodes.parts_sum_le_budget (mibs : Nat → Mib) (muxes : List Nat) (s : SystemModel)
    (nodes : Nodes) : (nodes.parts mibs muxes s).sum ≤ nodes.budget := by
  induction nodes with
  | none => exact Nat.le_refl _
  | register id nextSibling ih =>
    have hfirst := (s.registers id).pendings_le_one
    rw [parts, List.sum_cons, budget]
    split <;> omega
  | parent kind id firstChild nextSibling ihChild ihNext =>
    cases kind with
    | linker p keepOpen =>
      have hlever : weight (s.registers (mibs id).selectorRegister).pendings
          ((mibs id).lever.opens (s.registers (mibs id).selectorRegister).lastToSut)
          (firstChild.parts mibs muxes s) ≤ 2 * (firstChild.parts mibs muxes s).sum + 2 :=
        weight_le (Register.pendings_le_one _)
      rw [parts, List.sum_cons, budget]
      omega
    | _ =>
      change (firstChild.parts mibs muxes s).sum + (nextSibling.parts mibs muxes s).sum ≤
        firstChild.budget + nextSibling.budget
      omega

/-! ### The loop -/

/-- What is left to do falls with each turn. -/
theorem Turn.parts_sum_lt {configured updated reconfigured : SystemModel}
    (h : Turn mibs algorithm interface channels (channels.served mibs configured) s configured
      updated reconfigured) (hpending : configured.pendingCounts interface ≠ 0) :
    (channels.parts mibs channels.selectorRegisters reconfigured).sum <
      (channels.parts mibs channels.selectorRegisters configured).sum := by
  have hclosed : channels.Closed channels.selectorRegisters := fun _ _ hselector => hselector
  have hfalls : Falls (fun _ => true) 1
      (channels.parts mibs channels.selectorRegisters configured)
      (channels.parts mibs channels.selectorRegisters reconfigured) :=
    h.channels_fall channels h.wired
      ⟨List.Subset.refl _, List.Subset.refl _, List.Subset.refl _⟩ hclosed fun _ _ => Iff.rfl
  have hleft : (channels.parts mibs channels.selectorRegisters configured).sum ≠ 0 := by
    rw [Nodes.parts_sum_iff h.wired.retargetable hclosed h.wired.selectorRegisters_subset]
    exact (h.configures.counts interface channels List.mem_cons_self).mp hpending
  exact hfalls.sum_lt_of_all (fun _ => rfl) hleft

/-- Nothing is pending: each register has been sent the value it was to be sent, and the selectors their closed values. -/
structure Finished (mibs : Nat → Mib) (channels : Nodes) (s s' : SystemModel) : Prop where
  idle (reg : Nat) : reg ∈ channels.registerIds → (s'.registers reg).isPending = false
  sent (reg : Nat) : reg ∈ channels.registerIds →
    (s'.registers reg).lastToSut = (s'.registers reg).nextToSut
  asked (reg : Nat) : reg ∈ channels.registerIds → reg ∉ channels.selectorRegisters →
    (s'.registers reg).nextToSut = (s.registers reg).nextToSut
  closed (id : Nat) (firstChild : Nodes) : (id, firstChild) ∈ channels.linkers →
    (s'.registers (mibs id).selectorRegister).nextToSut = (mibs id).closedValue

theorem Reconfigured.finished (h : Reconfigured mibs algorithm interface channels s s')
    (hwired : channels.Wired mibs []) (hready : channels.Ready mibs s)
    (hidle : s'.pendingCounts interface = 0) : Finished mibs channels s s' := by
  have hnone : channels.anyPending s' = false := by
    have hcount := h.counts interface channels List.mem_cons_self
    rw [← Bool.not_eq_true, ← hcount]
    exact not_not.mpr hidle
  have hregisters : ∀ reg ∈ channels.registerIds, (s'.registers reg).isPending = false := by
    intro reg hreg
    rw [Nodes.anyPending, List.any_eq_false] at hnone
    exact Bool.eq_false_iff.mpr (hnone reg hreg)
  refine ⟨hregisters, fun reg hreg => ?_, fun reg hreg hselector => ?_,
    fun id firstChild hmem => ?_⟩
  · by_contra hnew
    have hpending := h.written reg hreg (Ne.symm hnew)
    rw [hregisters reg hreg] at hpending
    cases hpending
  · rw [h.flagged reg hreg hselector]
    rfl
  · rw [← Mib.lever_closed]
    refine Multiplexer.Resolved.closed (hready id firstChild hmem).proper ?_
      (h.decided id firstChild hmem).resolved (Nodes.works_idle ?_)
    · rw [Nodes.works_length, hwired.retargetable.paths_eq hmem]
    · rw [Nodes.anyPending, List.any_eq_false] at hnone ⊢
      intro reg hreg
      exact hnone reg ((Nodes.mem_parents (Nodes.linkers_subset channels hmem)).2 hreg)

namespace SystemModelManager

variable {protocol : Nat → Nat → Bits → Bits}
  (hprotocol : ∀ cycle channelId vector, (protocol cycle channelId vector).length = vector.length)
  (hwired : channels.Wired mibs []) (hinterface : interface ∉ channels.parentIds)
include hprotocol hwired hinterface

/-- The loop ends before the fuel runs out, if there is more of it than there is left to do once the model has been configured. -/
theorem doDataCycles_of_lt {fuel cycle : Nat} {s configured : SystemModel}
    (hready : channels.Ready mibs s) (hscannable : channels.Scannable s)
    (hconfigure : configureModel algorithm (.parent .accessInterface interface channels .none) s =
      .ok configured)
    (hconfigured : Reconfigured mibs algorithm interface channels s configured)
    (hfuel : (channels.parts mibs channels.selectorRegisters configured).sum < fuel) :
    ∃ s', doDataCycles algorithm protocol interface channels fuel cycle s = some (.ok s') ∧
      Finished mibs channels s s' := by
  induction fuel generalizing cycle s configured with
  | zero => exact absurd hfuel (Nat.not_lt_zero _)
  | succ fuel ih =>
    rw [doDataCycles, hconfigure]
    simp only
    by_cases hpending : configured.pendingCounts interface ≠ 0
    · rw [if_pos hpending]
      have hready₁ := hconfigured.ready hwired hready
      obtain ⟨updated, hcycle, hserves⟩ := doChannels_serves (hprotocol cycle) 1 hwired hready₁
        (hconfigured.scannable hwired hready hscannable)
      have hdata : doHierarchicalDataCycle (protocol cycle) interface channels configured =
          .ok updated := by
        rw [doHierarchicalDataCycle, if_pos hpending]
        exact hcycle
      have hready₂ := hserves.ready hready₁
      have hscannable₂ := hserves.scannable (hconfigured.scannable hwired hready hscannable)
      obtain ⟨reconfigured, hconfigure', hreconfigured⟩ :
          ∃ s', configureModel algorithm _ updated = .ok s' ∧
            Reconfigured mibs algorithm interface channels updated s' :=
        configureModel_reconfigured hwired hinterface hready₂
      have hturn : Turn mibs algorithm interface channels (channels.served mibs configured) s
          configured updated reconfigured :=
        ⟨hwired, hready, hconfigured, hserves, hreconfigured⟩
      have hlt := hturn.parts_sum_lt hpending
      obtain ⟨s', hrest, hfinished⟩ :=
        ih hready₂ hscannable₂ hconfigure' hreconfigured (show _ < fuel by omega)
      rw [hdata]
      refine ⟨s', hrest, hfinished.idle, hfinished.sent, fun reg hreg hselector => ?_,
        hfinished.closed⟩
      rw [hfinished.asked reg hreg hselector, hserves.nextToSut,
        hconfigured.flagged reg hreg hselector]
      rfl
    · rw [if_neg hpending]
      exact ⟨configured, rfl, hconfigured.finished hwired hready (not_not.mp hpending)⟩

/-- The loop ends with everything served, whatever the algorithm and whatever comes back, and as many data cycles suffice as can be read off the tree. -/
theorem doDataCycles_finishes (algorithm : ConfigureAlgorithm) {fuel : Nat}
    (hfuel : channels.budget < fuel) (cycle : Nat) {s : SystemModel}
    (hready : channels.Ready mibs s) (hscannable : channels.Scannable s) :
    ∃ s', doDataCycles algorithm protocol interface channels fuel cycle s = some (.ok s') ∧
      Finished mibs channels s s' := by
  obtain ⟨configured, hconfigure, hconfigured⟩ : ∃ s', configureModel algorithm _ s = .ok s' ∧
    Reconfigured mibs algorithm interface channels s s' :=
    configureModel_reconfigured hwired hinterface hready
  exact doDataCycles_of_lt hprotocol hwired hinterface hready hscannable hconfigure hconfigured
    (Nat.lt_of_le_of_lt (Nodes.parts_sum_le_budget mibs _ configured channels) hfuel)

end SystemModelManager

/-! ### The segments served -/

theorem nestedWritten_scannable : nestedSegments.Scannable nestedWritten where
  isRegister := by decide
  shiftable reg _ := by
    unfold nestedWritten
    simp only
    split
    all_goals
      refine ⟨rfl, Nat.one_pos, ⟨?_, ?_⟩⟩
      · exact fun hcheck => by cases hcheck
      · exact fun hcheck => by cases hcheck
  width_lt := by decide

theorem nestedSegments_finish :
    ∃ s', SystemModelManager.doDataCycles .lastLazy (fun _ _ vector => vector.map (!·)) 4
        nestedSegments 14 0 nestedWritten = some (.ok s') ∧
      Finished nestedMibs nestedSegments nestedWritten s' :=
  SystemModelManager.doDataCycles_finishes (fun _ _ _ => List.length_map _) nestedSegments_wired
    (by decide) .lastLazy (by decide) 0 nestedWritten_ready nestedWritten_scannable

end Mast
