import Mast.Manager.Awaited
import Mast.Retarget.Loop

/-!
# A tree of MIBs while applications write to it

Applications write and read the registers of a tree at any time. As long as they leave the selectors to the manager, every step keeps the tree in a state in which data cycles get through, and the channels that the manager serves are served as `DoDataCycles_Impl` does it for some answers of the device.
-/

namespace Mast

open Multiplexers Outcome

variable {s s' s'' : SystemModel}

/-! ### Sizes -/

/-- The register has a number of bits that cannot change, and its mask has as many. -/
structure Register.FixedWidth (r : Register) : Prop where
  isBlackBox : r.isBlackBox = false
  fixedSize_pos : 0 < r.fixedSize
  dontCareMask : r.dontCareMask ≠ [] → r.dontCareMask.length = r.fixedSize

/-- A register of fixed width keeps it. -/
structure Register.StaysFixed (r r' : Register) : Prop where
  bitsOrdering : r'.bitsOrdering = r.bitsOrdering
  fixedWidth : r.FixedWidth → r'.FixedWidth ∧ r'.fixedSize = r.fixedSize

namespace Register

variable {r r' r'' : Register} {sequence mask : Bits}

theorem FixedWidth.bitsCount (h : r.FixedWidth) : r.bitsCount = r.fixedSize :=
  r.bypass_length h.isBlackBox

theorem FixedWidth.shiftable (h : r.FixedWidth) : r.Shiftable where
  nextToSut := (r.nextToSut_length h.isBlackBox).trans h.bitsCount.symm
  bitsCount_pos := h.bitsCount ▸ h.fixedSize_pos
  comparable :=
    ⟨fun _ => (r.expectedFromSut_length h.isBlackBox).trans h.bitsCount.symm,
      fun _ hmask => (h.dontCareMask hmask).trans h.bitsCount.symm⟩

theorem FixedWidth.hasWidth (h : r.FixedWidth) : r.HasWidth r.fixedSize :=
  h.bitsCount ▸ HasWidth.of_bypass h.isBlackBox

theorem StaysFixed.refl (r : Register) : r.StaysFixed r := ⟨rfl, fun h => ⟨h, rfl⟩⟩

theorem StaysFixed.trans (h : r.StaysFixed r') (h' : r'.StaysFixed r'') : r.StaysFixed r'' where
  bitsOrdering := h'.bitsOrdering.trans h.bitsOrdering
  fixedWidth hfixed := by
    obtain ⟨hfixed', hsize⟩ := h.fixedWidth hfixed
    obtain ⟨hfixed'', hsize'⟩ := h'.fixedWidth hfixed'
    exact ⟨hfixed'', hsize'.trans hsize⟩

theorem StaysFixed.of_mask (hordering : r'.bitsOrdering = r.bitsOrdering)
    (hbox : r'.isBlackBox = r.isBlackBox) (hsize : r'.fixedSize = r.fixedSize)
    (hmask : r'.dontCareMask = r.dontCareMask ∨ r'.dontCareMask = [] ∨
      r'.dontCareMask.length = r'.expectedFromSut.length) : r.StaysFixed r' := by
  refine ⟨hordering, fun hfixed => ⟨⟨hbox.trans hfixed.isBlackBox, hsize ▸ hfixed.fixedSize_pos,
    fun hsome => ?_⟩, hsize⟩⟩
  rcases hmask with hsame | hnone | hlength
  · rw [hsame] at hsome ⊢
    rw [hsize]
    exact hfixed.dontCareMask hsome
  · exact absurd hnone hsome
  · exact hlength.trans (r'.expectedFromSut_length (hbox.trans hfixed.isBlackBox))

theorem SameSetup.staysFixed (h : r.SameSetup r') : r.StaysFixed r' :=
  .of_mask h.bitsOrdering h.isBlackBox h.fixedSize (.inl h.dontCareMask)

theorem SameBits.staysFixed (h : r.SameBits r') : r.StaysFixed r' :=
  .of_mask h.bitsOrdering h.isBlackBox h.fixedSize (.inl h.dontCareMask)

theorem setExpectedSequence_staysFixed (hset : r.setExpectedSequence sequence = .ok r') :
    r.StaysFixed r' := by
  unfold setExpectedSequence at hset
  split at hset
  · obtain rfl := Except.ok.inj hset
    exact .of_mask rfl rfl rfl (.inl rfl)
  · cases hset

theorem setExpectedFromSut_staysFixed (hset : r.setExpectedFromSut sequence mask = .ok r') :
    r.StaysFixed r' := by
  unfold setExpectedFromSut at hset
  by_cases hsizes : mask ≠ [] ∧ mask.length ≠ sequence.length
  · rw [if_pos hsizes] at hset
    cases hset
  · rw [if_neg hsizes] at hset
    split at hset
    · obtain rfl := Except.ok.inj hset
      refine .of_mask rfl rfl rfl (.inr ?_)
      by_cases hnone : mask = []
      · exact .inl hnone
      · exact .inr (not_not.mp fun hne => hsizes ⟨hnone, hne⟩)
    · cases hset

end Register

/-- So do all registers of a model. -/
structure SystemModel.StaysFixed (s s' : SystemModel) : Prop where
  identifierMapping : s'.identifierMapping = s.identifierMapping
  registers (id : Nat) : (s.registers id).StaysFixed (s'.registers id)

namespace SystemModel

theorem StaysFixed.refl (s : SystemModel) : s.StaysFixed s := ⟨rfl, fun _ => .refl _⟩

theorem StaysFixed.trans (h : s.StaysFixed s') (h' : s'.StaysFixed s'') : s.StaysFixed s'' :=
  ⟨h'.identifierMapping.trans h.identifierMapping,
    fun id => (h.registers id).trans (h'.registers id)⟩

instance : IsTrans SystemModel StaysFixed where
  trans _ _ _ h h' := h.trans h'

theorem setRegister_staysFixed {id : Nat} {r : Register} (hr : (s.registers id).StaysFixed r) :
    s.StaysFixed (s.setRegister id r) := by
  refine ⟨rfl, fun other => ?_⟩
  by_cases hother : other = id
  · rw [hother, setRegister_self]
    exact hr
  · rw [setRegister_other s r hother]
    exact .refl _

end SystemModel

namespace RequestedRegisters

theorem setToSut_staysFixed (reg : RequestedRegisters) (sequence : Bits) (s : SystemModel) :
    Keeps SystemModel.StaysFixed s (reg.setToSut sequence s) := by
  have hset : ∀ s id sequence r, ((s : SystemModel).registers id).setToSut sequence = .ok r →
      s.StaysFixed (s.setRegister id r) := fun _ _ _ _ hr =>
    SystemModel.setRegister_staysFixed (Register.setToSut_sameSetup hr).staysFixed
  cases reg with
  | register id =>
    intro s' hrun
    obtain ⟨r, hr, rfl⟩ := map_eq_ok.mp hrun
    exact hset s id sequence r hr
  | virtual v => exact VirtualRegister.setToSut_keeps .refl hset v sequence s

theorem setExpectedFromSut_staysFixed (reg : RequestedRegisters) (sequence mask : Bits)
    (s : SystemModel) :
    Keeps SystemModel.StaysFixed s (reg.setExpectedFromSut sequence mask s) := by
  cases reg with
  | register id =>
    intro s' hrun
    obtain ⟨r, hr, rfl⟩ := map_eq_ok.mp hrun
    exact SystemModel.setRegister_staysFixed (Register.setExpectedFromSut_staysFixed hr)
  | virtual v =>
    refine VirtualRegister.setExpectedFromSut_keeps .refl ?_ ?_ sequence mask s
    · intro s id sequence r hr
      exact SystemModel.setRegister_staysFixed (Register.setExpectedSequence_staysFixed hr)
    · intro s id sequence mask r hr
      exact SystemModel.setRegister_staysFixed (Register.setExpectedFromSut_staysFixed hr)

theorem setToSut_others (reg : RequestedRegisters) (sequence : Bits) (s : SystemModel) :
    Keeps (SystemModel.Steered reg.identifiers) s (reg.setToSut sequence s) := by
  cases reg with
  | register id =>
    intro s' hrun
    obtain ⟨r, hr, rfl⟩ := map_eq_ok.mp hrun
    exact SystemModel.setRegister_steered (List.mem_singleton.mpr rfl)
      (Register.setToSut_steered hr)
  | virtual v => exact VirtualRegister.setToSut_steered (List.Subset.refl _) sequence s

end RequestedRegisters

/-! ### Requests -/

namespace SystemModelManager

variable {Thread : Type} {thread : Thread} {m m' : SystemModelManager Thread}

def StaysFixed (m m' : SystemModelManager Thread) : Prop := m.model.StaysFixed m'.model

instance : IsTrans (SystemModelManager Thread) StaysFixed where
  trans _ _ _ h h' := SystemModel.StaysFixed.trans h h'

theorem StaysFixed.refl (m : SystemModelManager Thread) : m.StaysFixed m :=
  SystemModel.StaysFixed.refl m.model

theorem writeAll_others {requests : List QueuedRequest} (hwrite : writeAll requests s = .ok s')
    {id : Nat} (hother : ∀ request ∈ requests, id ∉ request.reg.identifiers) :
    s'.registers id = s.registers id := by
  induction requests generalizing s with
  | nil =>
    obtain rfl := Except.ok.inj hwrite
    rfl
  | cons request rest ih =>
    obtain ⟨between, hset, hrest⟩ := bind_eq_ok.mp hwrite
    have hfirst := request.reg.setToSut_others request.value s between hset
    rw [ih hrest fun other hmem => hother other (List.mem_cons_of_mem _ hmem)]
    exact hfirst.others id (hother request List.mem_cons_self)

variable [DecidableEq Thread]

theorem registerPendingThread_staysFixed (thread : Thread) (m : SystemModelManager Thread)
    (regId : Nat) : m.StaysFixed (m.registerPendingThread thread regId) := by
  unfold StaysFixed
  rw [registerPendingThread_model]
  exact .refl _

theorem registerWritten_staysFixed (thread : Thread) (m : SystemModelManager Thread) (id : Nat) :
    Keeps StaysFixed m (registerWritten thread m id) := by
  refine Keeps.read fun found _ => ?_
  cases found with
  | none => exact Keeps.error _
  | some reg =>
    exact Keeps.ite (fun _ => Keeps.ok (registerPendingThread_staysFixed thread m id))
      fun _ => Keeps.ok (.refl m)

theorem registerAwaited_staysFixed (checkExpected : Bool) (thread : Thread)
    (m : SystemModelManager Thread) (id : Nat) :
    Keeps StaysFixed m (registerAwaited checkExpected thread m id) := by
  refine Keeps.read fun found hfound => ?_
  cases found with
  | none => exact Keeps.error _
  | some reg =>
    obtain rfl := SystemModel.registerWithId_eq_some hfound
    apply Keeps.ok
    refine IsTrans.trans m { m with model := m.model.setRegister id _ } _ ?_
      (registerPendingThread_staysFixed thread _ id)
    apply SystemModel.setRegister_staysFixed
    cases checkExpected
    · exact .of_mask rfl rfl rfl (.inl rfl)
    · exact .of_mask rfl rfl rfl (.inl rfl)

theorem processQueuedRequests_staysFixed (thread : Thread) (requests : QueuedRequests)
    (m : SystemModelManager Thread) :
    Keeps StaysFixed m (m.processQueuedRequests thread requests) := by
  have hwrites : ∀ (m : SystemModelManager Thread) request,
      Keeps StaysFixed m (processWrite thread m request) := by
    intro m request
    refine Keeps.read fun model hset => ?_
    intro m' hrun
    refine IsTrans.trans m { m with model } m' ?_ ?_
    · exact request.reg.setToSut_staysFixed request.value m.model model hset
    · exact Keeps.foldlM .refl (registerWritten_staysFixed thread) _ _ m' hrun
  have hreads : ∀ (m : SystemModelManager Thread) request,
      Keeps StaysFixed m (processRead thread m request) := by
    intro m request
    refine Keeps.read fun model hset => ?_
    intro m' hrun
    refine IsTrans.trans m { m with model } m' ?_ ?_
    · exact request.reg.setExpectedFromSut_staysFixed request.value request.mask m.model model hset
    · exact Keeps.foldlM .refl (registerAwaited_staysFixed true thread) _ _ m' hrun
  refine Keeps.bind (Keeps.foldlM .refl hwrites _ m) fun m _ => ?_
  refine Keeps.bind (Keeps.foldlM .refl (fun m request => ?_) _ m) fun m _ => ?_
  · exact Keeps.foldlM .refl (registerAwaited_staysFixed false thread) _ m
  · exact Keeps.foldlM .refl hreads _ m

end SystemModelManager

/-! ### States in which data cycles get through -/

/-- The selectors are ready, and the registers have fixed sizes, of fewer than `2^32` bits in all. -/
structure Nodes.Operable (mibs : Nat → Mib) (nodes : Nodes) (s : SystemModel) : Prop where
  ready : nodes.Ready mibs s
  isRegister (reg : Nat) : reg ∈ nodes.registerIds → s.IsRegister reg
  fixedWidth (reg : Nat) : reg ∈ nodes.registerIds → (s.registers reg).FixedWidth
  width_lt : FromSutUpdater.width s nodes.registerIds < uint32Size

namespace Nodes.Operable

variable {mibs : Nat → Mib} {nodes : Nodes} (h : nodes.Operable mibs s)
include h

theorem scannable : nodes.Scannable s :=
  ⟨h.isRegister, fun reg hreg => (h.fixedWidth reg hreg).shiftable, h.width_lt⟩

theorem stays (hwired : nodes.Wired mibs []) (hstays : s.StaysFixed s')
    (hproper : ∀ id firstChild, (id, firstChild) ∈ nodes.linkers →
      (mibs id).lever.Proper (s'.registers (mibs id).selectorRegister).nextToSut) :
    nodes.Operable mibs s' := by
  have hfixed : ∀ reg ∈ nodes.registerIds, (s'.registers reg).FixedWidth ∧
      (s'.registers reg).fixedSize = (s.registers reg).fixedSize := fun reg hreg =>
    (hstays.registers reg).fixedWidth (h.fixedWidth reg hreg)
  refine ⟨fun id firstChild hmem => ?_, fun reg hreg => ?_, fun reg hreg => (hfixed reg hreg).1, ?_⟩
  · have hreg := hwired.selectorRegisters_subset (mem_selectorRegisters hwired.retargetable hmem)
    obtain ⟨hfixed', hsize⟩ := hfixed _ hreg
    have hwidth : (s.registers (mibs id).selectorRegister).fixedSize = (mibs id).width :=
      (h.fixedWidth _ hreg).bitsCount.symm.trans (h.ready id firstChild hmem).hasWidth.bypass
    refine ⟨?_, fun hupto => (h.ready id firstChild hmem).ordering ?_, hproper id firstChild hmem⟩
    · rw [← hwidth, ← hsize]
      exact hfixed'.hasWidth
    · rwa [← (hstays.registers _).bitsOrdering]
  · rw [SystemModel.IsRegister, hstays.identifierMapping]
    exact h.isRegister reg hreg
  · have hsame : ∀ reg ∈ nodes.registerIds,
        (s'.registers reg).bitsCount = (s.registers reg).bitsCount := by
      intro reg hreg
      rw [(hfixed reg hreg).1.bitsCount, (hfixed reg hreg).2, (h.fixedWidth reg hreg).bitsCount]
    rw [FromSutUpdater.width_of_bitsCount hsame]
    exact h.width_lt

end Nodes.Operable

/-! ### The channels of a data cycle -/

theorem Nodes.Retargetable.channels_eq {mibs : Nat → Mib} {nodes : Nodes} {siblings : List Nat}
    (h : nodes.Retargetable mibs siblings) : nodes.channels = [] := by
  induction nodes generalizing siblings with
  | none => rfl
  | register id nextSibling ih => exact ih h
  | parent kind id firstChild nextSibling ihChild ihNext =>
    cases kind with
    | linker p keepOpen =>
      obtain ⟨-, hbelow, hnext⟩ := h
      change firstChild.channels ++ nextSibling.channels = []
      rw [ihChild hbelow, ihNext hnext, List.append_nil]
    | chain =>
      change firstChild.channels ++ nextSibling.channels = []
      rw [ihChild h.1, ihNext h.2, List.append_nil]
    | _ => exact h.elim

theorem Nodes.Splits.eachSibling {nodes head tail : Nodes} (h : nodes.Splits head tail) :
    nodes.eachSibling = head :: tail.eachSibling := by
  cases h <;> rfl

namespace SystemModelManager

variable {Thread : Type} [DecidableEq Thread] {m m' : SystemModelManager Thread}
  {mibs : Nat → Mib} {algorithm : ConfigureAlgorithm} {interface : Nat} {channels : Nodes}
  {services : List Service}

theorem ServesChannels.staysFixed {nodes : List Nodes}
    (h : ServesChannels nodes m services m') : m.StaysFixed m' := by
  induction h with
  | done m => exact .refl m
  | idle _ _ ih => exact ih
  | empty _ _ _ _ ih => exact ih
  | @scanned channel channels m m' services visitor fromSutVector updated _ _ _ hupdate _ ih =>
    obtain ⟨hmapping, hbits, -⟩ := FromSutUpdater.updateFrom_setup hupdate
    have hfirst : m.model.StaysFixed updated := ⟨hmapping, fun reg => (hbits reg).staysFixed⟩
    have hmodel : (({ m with model := updated }).reportServedRegisters
        visitor.activeRegisters).releaseServedThreads.model = updated :=
      reportServedRegisters_model visitor.activeRegisters { m with model := updated }
    unfold StaysFixed at ih ⊢
    rw [hmodel] at ih
    exact hfirst.trans ih

/-- What the manager makes of the model when it serves channels is what the loop makes of it, whatever comes back from the device. -/
theorem ServesChannels.model_serves {nodes : Nodes} (hwired : nodes.Wired mibs [])
    (hready : nodes.Ready mibs m.model) (hscannable : nodes.Scannable m.model)
    (h : ServesChannels nodes.eachSibling m services m') :
    Mast.Serves (nodes.served mibs m.model) m.model m'.model := by
  induction nodes using Nodes.splits_induction generalizing m services with
  | none =>
    cases h
    exact .none _
  | @splits nodes head tail hsplits ih =>
    have hwiredHead := hsplits.wired_head hwired
    obtain ⟨hscannableHead, -⟩ := hsplits.scannable hscannable
    have hreadyHead : head.Ready mibs m.model := fun id firstChild hmem =>
      hready id firstChild (hsplits.linkers ▸ List.mem_append_left _ hmem)
    obtain ⟨visitor₁, hvisit₁, hactive, -, hnone⟩ :=
      ToSutVisitor.visit_channel hwiredHead hscannableHead hreadyHead
    rw [hsplits.eachSibling] at h
    have hfirst : ∃ (m₁ : SystemModelManager Thread) (rest : List Service),
        Mast.Serves (if head.isPending m.model then
          head.reached mibs m.model (fun _ => true) 1 else []) m.model m₁.model ∧
        ServesChannels tail.eachSibling m₁ rest m' := by
      cases h with
      | idle hidle hrest =>
        refine ⟨m, services, ?_, hrest⟩
        rw [hidle]
        exact .none m.model
      | @empty _ _ _ _ _ visitor hpending hvisit hempty hrest =>
        obtain rfl : visitor₁ = visitor := Except.ok.inj (hvisit₁.symm.trans hvisit)
        refine ⟨m, services, ?_, hrest⟩
        rw [if_pos hpending, hnone hempty]
        exact .none m.model
      | @scanned _ _ _ _ rest visitor fromSutVector updated hpending hvisit hsome hupdate hrest =>
        obtain rfl : visitor₁ = visitor := Except.ok.inj (hvisit₁.symm.trans hvisit)
        refine ⟨_, rest, ?_, hrest⟩
        have hmodel : (({ m with model := updated }).reportServedRegisters
            visitor₁.activeRegisters).releaseServedThreads.model = updated :=
          reportServedRegisters_model visitor₁.activeRegisters { m with model := updated }
        rw [if_pos hpending, hmodel, ← hactive]
        rw [hactive] at hupdate ⊢
        exact .of_update hwiredHead hscannableHead Nodes.reached_sublist hupdate
    obtain ⟨m₁, rest, hserves, hrest⟩ := hfirst
    obtain ⟨hreadyTail, hscannableTail⟩ := hserves.leaves hsplits hwired hready hscannable
    exact hserves.splits hsplits hwired (ih (hsplits.wired hwired) hreadyTail hscannableTail hrest)

/-- The manager can serve channels as the loop does it. -/
theorem exists_servesChannels {nodes : Nodes} {protocol : Nat → Bits → Bits} {channelId : Nat}
    (hrun : doChannels protocol channelId nodes m.model = .ok s') :
    ∃ services m', ServesChannels nodes.eachSibling m services m' ∧ m'.model = s' := by
  induction nodes using Nodes.splits_induction generalizing m channelId with
  | none =>
    obtain rfl := Except.ok.inj hrun
    exact ⟨[], m, .done m, rfl⟩
  | @splits nodes head tail hsplits ih =>
    rw [doChannels_splits hsplits] at hrun
    obtain ⟨s₁, hfirst, hrest⟩ := bind_eq_ok.mp hrun
    rw [hsplits.eachSibling]
    unfold doChannel at hfirst
    by_cases hpending : head.isPending m.model = true
    · rw [if_pos hpending] at hfirst
      obtain ⟨visitor, hvisit, hscan⟩ := bind_eq_ok.mp hfirst
      by_cases hempty : visitor.toSutVector = []
      · rw [if_pos hempty] at hscan
        obtain rfl := Except.ok.inj hscan
        obtain ⟨services, m', hserves, hmodel⟩ := ih hrest
        exact ⟨services, m', .empty hpending hvisit hempty hserves, hmodel⟩
      · rw [if_neg hempty] at hscan
        have hmodel₁ : (({ m with model := s₁ }).reportServedRegisters
            visitor.activeRegisters).releaseServedThreads.model = s₁ :=
          reportServedRegisters_model visitor.activeRegisters { m with model := s₁ }
        rw [← hmodel₁] at hrest
        obtain ⟨services, m', hserves, hmodel⟩ := ih hrest
        exact ⟨_ :: services, m', .scanned hpending hvisit hempty hscan hserves, hmodel⟩
    · rw [if_neg hpending] at hfirst
      obtain rfl := Except.ok.inj hfirst
      obtain ⟨services, m', hserves, hmodel⟩ := ih hrest
      exact ⟨services, m', .idle (Bool.eq_false_iff.mpr hpending) hserves, hmodel⟩

/-! ### Every step keeps the tree operable -/

/-- The writes name no register that drives a linker. -/
def Event.Spares (channels : Nodes) : Event Thread → Prop
  | .processQueuedRequests _ requests =>
    ∀ request ∈ requests.queuedWrites, ∀ id ∈ request.reg.identifiers,
      id ∉ channels.selectorRegisters
  | _ => True

section

variable (hwired : channels.Wired mibs []) (hinterface : interface ∉ channels.parentIds)
include hwired

theorem channels_eq :
    (Nodes.parent .accessInterface interface channels .none).channels = channels.eachSibling := by
  change channels.channels ++ channels.eachSibling ++ [] = channels.eachSibling
  rw [hwired.retargetable.channels_eq, List.nil_append, List.append_nil]

theorem processQueuedRequests_operable {thread : Thread} {requests : QueuedRequests}
    (hspares : (Event.processQueuedRequests thread requests).Spares channels)
    (h : channels.Operable mibs m.model)
    (hprocess : m.processQueuedRequests thread requests = .ok m') :
    channels.Operable mibs m'.model := by
  obtain ⟨written, hwrite, hrequested, -⟩ := processQueuedRequests_run hprocess
  refine h.stays hwired (processQueuedRequests_staysFixed thread requests m m' hprocess)
    fun id firstChild hmem => ?_
  have hreg := Nodes.mem_selectorRegisters hwired.retargetable hmem
  rw [hrequested.nextToSut,
    writeAll_others hwrite fun request hrequest hid => hspares request hrequest _ hid hreg]
  exact (h.ready id firstChild hmem).proper

theorem dataCycle_operable {configured : SystemModel}
    (h : channels.Operable mibs configured)
    (hserves : ServesChannels (Nodes.parent .accessInterface interface channels .none).channels
      { m with model := configured } services m') : channels.Operable mibs m'.model := by
  rw [channels_eq hwired] at hserves
  have hserved : Mast.Serves (channels.served mibs configured) configured m'.model :=
    hserves.model_serves hwired h.ready h.scannable
  refine h.stays hwired hserves.staysFixed fun id firstChild hmem => ?_
  rw [hserved.nextToSut]
  exact (h.ready id firstChild hmem).proper

include hinterface

theorem configure_reconfigured {s configured : SystemModel} (hready : channels.Ready mibs s)
    (hconfigure : configure algorithm.create (.parent .accessInterface interface channels .none) s =
      .ok configured) : Reconfigured mibs algorithm interface channels s configured := by
  obtain ⟨s', hrun, hreconfigured⟩ : ∃ s', configureModel algorithm _ s = .ok s' ∧
    Reconfigured mibs algorithm interface channels s s' :=
    configureModel_reconfigured hwired hinterface hready
  obtain rfl : configured = s' := Except.ok.inj (hconfigure.symm.trans hrun)
  exact hreconfigured

theorem configured_operable {s configured : SystemModel} (h : channels.Operable mibs s)
    (hconfigure : configure algorithm.create (.parent .accessInterface interface channels .none) s =
      .ok configured) : channels.Operable mibs configured := by
  have hreconfigured := configure_reconfigured hwired hinterface h.ready hconfigure
  refine h.stays hwired ⟨hreconfigured.identifierMapping,
    fun reg => (hreconfigured.sameSetup reg).staysFixed⟩ fun id firstChild hmem => ?_
  exact (hreconfigured.ready hwired h.ready id firstChild hmem).proper

theorem Step.operable {event : Event Thread}
    (hstep : Step algorithm.create (.parent .accessInterface interface channels .none) m event m')
    (hspares : event.Spares channels) (h : channels.Operable mibs m.model) :
    channels.Operable mibs m'.model := by
  cases hstep with
  | processQueuedRequests hprocess =>
    exact processQueuedRequests_operable hwired hspares h hprocess
  | reportPending hthread => exact h
  | dataCycle hconfigure hpending hserves =>
    exact dataCycle_operable hwired (configured_operable hwired hinterface h hconfigure) hserves
  | endOfDataCycles hconfigure hidle => exact configured_operable hwired hinterface h hconfigure

end

end SystemModelManager

end Mast
