import Mast.Lib.WaitingSets
import Mast.Manager.Applications
import Mast.Scan.ReadChecks

/-!
# What the steps do to those who wait

The registers a thread waits for are told by its own set and by the pairs of `m_regIdToAppData`, which always agree. Requests only add to them, and a data cycle takes out the registers it has scanned.
-/

namespace Mast

open Outcome Runs
open WaitingSets (Agree)

namespace SystemModelManager

variable {Thread : Type}

def awaited (m : SystemModelManager Thread) (thread : Thread) : Finset Nat :=
  (m.appData thread).pendingRegistersIds

structure Consistent (m : SystemModelManager Thread) : Prop where
  agree : Agree m.awaited m.regIdToAppData
  canProceed (thread : Thread) : (m.appData thread).canProceed = true → m.awaited thread = ∅

theorem Consistent.withModel {m : SystemModelManager Thread} (h : m.Consistent)
    (model : SystemModel) : Consistent { m with model } := ⟨h.agree, h.canProceed⟩

structure Idle (m : SystemModelManager Thread) : Prop where
  awaited (thread : Thread) : m.awaited thread = ∅
  regIdToAppData : m.regIdToAppData = []
  pendingThreads : m.pendingThreads = ∅

theorem Idle.consistent {m : SystemModelManager Thread} (h : m.Idle) : m.Consistent where
  agree := by
    rw [funext h.awaited, h.regIdToAppData]
    exact .empty
  canProceed thread _ := h.awaited thread

/-! ### Registering -/

/-- A thread has begun to wait for registers; of the model nothing is said. -/
structure Registers (thread : Thread) (ids : List Nat) (m m' : SystemModelManager Thread) :
    Prop where
  managerThreadId : m'.managerThreadId = m.managerThreadId
  awaited (client : Thread) (id : Nat) : id ∈ m'.awaited client ↔ id ∈ m.awaited client ∨
    (client = thread ∧ thread ≠ m.managerThreadId ∧ id ∈ ids)
  consistent : m.Consistent → m'.Consistent

variable {thread : Thread} {ids ids' : List Nat} {m m' m'' : SystemModelManager Thread}

theorem Registers.model (thread : Thread) (m : SystemModelManager Thread) (model : SystemModel) :
    Registers thread [] m { m with model } where
  managerThreadId := rfl
  awaited client id := by
    simp only [List.not_mem_nil, and_false, or_false]
    exact Iff.rfl
  consistent h := h.withModel model

theorem Registers.trans (h : Registers thread ids m m') (h' : Registers thread ids' m' m'') :
    Registers thread (ids ++ ids') m m'' where
  managerThreadId := h'.managerThreadId.trans h.managerThreadId
  awaited client id := by
    rw [h'.awaited, h.awaited, h.managerThreadId, List.mem_append]
    tauto
  consistent := h'.consistent ∘ h.consistent

/-- A read has been requested for registers; none has been written. -/
structure Requested (ids : List Nat) (s s' : SystemModel) : Prop where
  nextToSut (id : Nat) : (s'.registers id).nextToSut = (s.registers id).nextToSut
  lastToSut (id : Nat) : (s'.registers id).lastToSut = (s.registers id).lastToSut
  pendingRead (id : Nat) : (s'.registers id).pendingRead = true ↔
    (s.registers id).pendingRead = true ∨ id ∈ ids

theorem Requested.refl (s : SystemModel) : Requested [] s s :=
  ⟨fun _ => rfl, fun _ => rfl, fun _ => by simp⟩

theorem Requested.trans {s s' s'' : SystemModel} (h : Requested ids s s')
    (h' : Requested ids' s' s'') : Requested (ids ++ ids') s s'' where
  nextToSut id := (h'.nextToSut id).trans (h.nextToSut id)
  lastToSut id := (h'.lastToSut id).trans (h.lastToSut id)
  pendingRead id := by
    rw [h'.pendingRead, h.pendingRead, List.mem_append]
    tauto

/-- A thread has requested reads of registers. -/
structure Awaits (thread : Thread) (ids : List Nat) (m m' : SystemModelManager Thread) : Prop where
  requested : Requested ids m.model m'.model
  registers : Registers thread ids m m'

theorem Awaits.trans (h : Awaits thread ids m m') (h' : Awaits thread ids' m' m'') :
    Awaits thread (ids ++ ids') m m'' :=
  ⟨h.requested.trans h'.requested, h.registers.trans h'.registers⟩

theorem awaits_runs {α : Type} (idsOf : α → List Nat)
    (process : SystemModelManager Thread → α → Except Fault (SystemModelManager Thread))
    (hstep : ∀ {m a m'}, process m a = .ok m' → Awaits thread (idsOf a) m m') {requests : List α}
    (hrun : requests.foldlM process m = .ok m') : Awaits thread (requests.flatMap idsOf) m m' := by
  induction requests generalizing m with
  | nil =>
    obtain rfl := Except.ok.inj hrun
    exact ⟨.refl _, .model thread m m.model⟩
  | cons request rest ih =>
    obtain ⟨between, hfirst, hrest⟩ := bind_eq_ok.mp hrun
    exact (hstep hfirst).trans (ih hrest)

/-- Registers have been served: nobody waits for them any more. -/
structure Serves (ids : List Nat) (m m' : SystemModelManager Thread) : Prop where
  managerThreadId : m'.managerThreadId = m.managerThreadId
  awaited (client : Thread) (id : Nat) :
    id ∈ m'.awaited client ↔ id ∈ m.awaited client ∧ id ∉ ids
  consistent : m'.Consistent

theorem Serves.trans (h : Serves ids m m') (h' : Serves ids' m' m'') :
    Serves (ids ++ ids') m m'' where
  managerThreadId := h'.managerThreadId.trans h.managerThreadId
  awaited client id := by
    rw [h'.awaited, h.awaited, List.mem_append]
    tauto
  consistent := h'.consistent

variable [DecidableEq Thread]

theorem registerPendingThread_model (regId : Nat) :
    (m.registerPendingThread thread regId).model = m.model := by
  unfold registerPendingThread
  split
  · rfl
  · dsimp only
    split
    · rfl
    · rfl

theorem registerPendingThread_registers (regId : Nat) :
    Registers thread [regId] m (m.registerPendingThread thread regId) := by
  unfold registerPendingThread
  by_cases hmanager : thread = m.managerThreadId
  · rw [if_pos hmanager]
    refine ⟨rfl, fun client id => ?_, id⟩
    simp only [ne_eq, hmanager, not_true_eq_false, false_and, and_false, or_false]
  · rw [if_neg hmanager]
    dsimp only
    split
    · rename_i hknown
      have hsame : awaited { m with
          appData := Function.update m.appData thread
            ⟨false, (m.appData thread).pendingRegistersIds⟩ } = m.awaited := by
        funext client
        unfold awaited
        by_cases hclient : client = thread
        · subst hclient
          simp only [Function.update_self]
        · simp only [Function.update_of_ne hclient]
      refine ⟨rfl, fun client id => ?_, fun h => ⟨hsame ▸ h.agree, fun client hproceed => ?_⟩⟩
      · rw [hsame, List.mem_singleton]
        constructor
        · exact .inl
        · rintro (hid | ⟨rfl, -, rfl⟩)
          · exact hid
          · exact hknown
      · rw [hsame]
        by_cases hclient : client = thread
        · subst hclient
          simp only [Function.update_self, Bool.false_eq_true] at hproceed
        · simp only [Function.update_of_ne hclient] at hproceed
          exact h.canProceed client hproceed
    · rename_i hnew
      let m' : SystemModelManager Thread :=
        { m with
          appData := Function.update m.appData thread
            ⟨false, insert regId (m.appData thread).pendingRegistersIds⟩
          regIdToAppData := m.regIdToAppData ++ [(regId, thread)] }
      have hself : m'.awaited thread = insert regId (m.awaited thread) := by
        simp only [awaited, m', Function.update_self]
      have hothers : ∀ client, client ≠ thread → m'.awaited client = m.awaited client := by
        intro client hclient
        simp only [awaited, m', Function.update_of_ne hclient]
      refine ⟨rfl, fun client id => ?_, fun h => ⟨h.agree.enter hnew hself hothers, ?_⟩⟩
      · change id ∈ m'.awaited client ↔ _
        by_cases hclient : client = thread
        · subst hclient
          rw [hself, Finset.mem_insert, List.mem_singleton]
          tauto
        · rw [hothers client hclient]
          simp only [hclient, false_and, or_false]
      · intro client hproceed
        by_cases hclient : client = thread
        · subst hclient
          simp only [Function.update_self, Bool.false_eq_true] at hproceed
        · simp only [Function.update_of_ne hclient] at hproceed
          exact (hothers client hclient).trans (h.canProceed client hproceed)

/-! ### Requests -/

/-- The registers that writes leave in some relation to what they were, one write after the other. -/
def writtenRegisters (P : Register → Register → Bool) : List QueuedRequest → SystemModel → List Nat
  | [], _ => []
  | request :: rest, s =>
    match request.reg.setToSut request.value s with
    | .error _ => []
    | .ok s' =>
      request.reg.identifiers.filter (fun id => P (s.registers id) (s'.registers id)) ++
        writtenRegisters P rest s'

def leftPending : List QueuedRequest → SystemModel → List Nat :=
  writtenRegisters fun _ r => r.nextToSut ≠ r.lastToSut

def writeAll (requests : List QueuedRequest) (s : SystemModel) : Except Fault SystemModel :=
  requests.foldlM (fun s request => request.reg.setToSut request.value s) s

def readIds (requests : QueuedRequests) : List Nat :=
  (requests.queuedRefreshes ++ requests.queuedReads).flatMap fun request =>
    request.reg.identifiers

instance : IsTrans SystemModel (Requested []) where
  trans _ _ _ h h' := h.trans h'

theorem Requested.setRegister {s : SystemModel} {id : Nat} {r : Register}
    (hnext : r.nextToSut = (s.registers id).nextToSut)
    (hlast : r.lastToSut = (s.registers id).lastToSut)
    (hread : r.pendingRead = true ↔ (s.registers id).pendingRead = true ∨ id ∈ ids)
    (honly : ids ⊆ [id]) : Requested ids s (s.setRegister id r) := by
  have hothers : ∀ other, other ≠ id → other ∉ ids := fun other hother hmem =>
    hother (List.mem_singleton.mp (honly hmem))
  refine ⟨fun other => ?_, fun other => ?_, fun other => ?_⟩
  · by_cases hother : other = id
    · rw [hother, SystemModel.setRegister_self, hnext]
    · rw [SystemModel.setRegister_other _ _ hother]
  · by_cases hother : other = id
    · rw [hother, SystemModel.setRegister_self, hlast]
    · rw [SystemModel.setRegister_other _ _ hother]
  · by_cases hother : other = id
    · rw [hother, SystemModel.setRegister_self, hread]
    · rw [SystemModel.setRegister_other _ _ hother]
      simp only [hothers other hother, or_false]

theorem setExpectedFromSut_requested (reg : RequestedRegisters) (sequence dontCareMask : Bits)
    (s : SystemModel) :
    Keeps (Requested []) s (reg.setExpectedFromSut sequence dontCareMask s) := by
  have hmasked : ∀ s id sequence dontCareMask r,
      ((s : SystemModel).registers id).setExpectedFromSut sequence dontCareMask = .ok r →
      Requested [] s (s.setRegister id r) := by
    intro s id sequence dontCareMask r hset
    unfold Register.setExpectedFromSut at hset
    split at hset
    · cases hset
    · split at hset
      · obtain rfl := Except.ok.inj hset
        exact .setRegister rfl rfl (by simp) (List.nil_subset _)
      · cases hset
  have hsequence : ∀ s id sequence r,
      ((s : SystemModel).registers id).setExpectedSequence sequence = .ok r →
      Requested [] s (s.setRegister id r) := by
    intro s id sequence r hset
    unfold Register.setExpectedSequence at hset
    split at hset
    · obtain rfl := Except.ok.inj hset
      exact .setRegister rfl rfl (by simp) (List.nil_subset _)
    · cases hset
  cases reg with
  | register id =>
    intro s' hset
    obtain ⟨r, hr, rfl⟩ := map_eq_ok.mp hset
    exact hmasked s id sequence dontCareMask r hr
  | virtual v =>
    exact VirtualRegister.setExpectedFromSut_keeps .refl hsequence hmasked sequence dontCareMask s

theorem setToSut_steers (reg : RequestedRegisters) (sequence : Bits) {s s' : SystemModel}
    (hset : reg.setToSut sequence s = .ok s') (id : Nat) :
    (s.registers id).Steered (s'.registers id) := by
  cases reg with
  | register other =>
    obtain ⟨r, hr, rfl⟩ := map_eq_ok.mp hset
    have hsteered := SystemModel.setRegister_steered (List.mem_singleton.mpr rfl)
      (Register.setToSut_steered hr)
    exact hsteered.registers id
  | virtual v =>
    exact (VirtualRegister.setToSut_steered (List.Subset.refl _) sequence s s' hset).registers id

theorem writeAll_steers {requests : List QueuedRequest} {s s' : SystemModel}
    (hwrite : writeAll requests s = .ok s') (id : Nat) :
    (s.registers id).Steered (s'.registers id) := by
  induction requests generalizing s with
  | nil =>
    obtain rfl := Except.ok.inj hwrite
    exact .refl _
  | cons request rest ih =>
    obtain ⟨between, hset, hrest⟩ := bind_eq_ok.mp hwrite
    exact (setToSut_steers _ _ hset id).trans (ih hrest)

theorem registerWritten_run {id : Nat} (hrun : registerWritten thread m id = .ok m') :
    m'.model = m.model ∧ Registers thread ([id].filter fun id =>
      (m.model.registers id).nextToSut ≠ (m.model.registers id).lastToSut) m m' := by
  obtain ⟨found, hfound, hrest⟩ := bind_eq_ok.mp hrun
  cases found with
  | none => cases hrest
  | some reg =>
    obtain rfl := SystemModel.registerWithId_eq_some hfound
    dsimp only at hrest
    by_cases hdiffers : (m.model.registers id).nextToSut ≠ (m.model.registers id).lastToSut
    · rw [if_pos hdiffers] at hrest
      obtain rfl := Except.ok.inj hrest
      have hself : [id].filter (fun id =>
          (m.model.registers id).nextToSut ≠ (m.model.registers id).lastToSut) = [id] := by
        simp [hdiffers]
      rw [hself]
      exact ⟨registerPendingThread_model id, registerPendingThread_registers id⟩
    · rw [if_neg hdiffers] at hrest
      obtain rfl := Except.ok.inj hrest
      have hnone : [id].filter (fun id =>
          (m.model.registers id).nextToSut ≠ (m.model.registers id).lastToSut) = [] := by
        simpa using hdiffers
      rw [hnone]
      exact ⟨rfl, .model thread m m.model⟩

theorem registerWritten_runs {identifiers : List Nat}
    (hrun : identifiers.foldlM (registerWritten thread) m = .ok m') :
    m'.model = m.model ∧ Registers thread (identifiers.filter fun id =>
      (m.model.registers id).nextToSut ≠ (m.model.registers id).lastToSut) m m' := by
  induction identifiers generalizing m with
  | nil =>
    obtain rfl := Except.ok.inj hrun
    exact ⟨rfl, .model thread m m.model⟩
  | cons id rest ih =>
    obtain ⟨between, hfirst, hrest⟩ := bind_eq_ok.mp hrun
    obtain ⟨hmodel, hregisters⟩ := registerWritten_run hfirst
    obtain ⟨hmodel', hregisters'⟩ := ih hrest
    rw [hmodel] at hmodel' hregisters'
    refine ⟨hmodel', ?_⟩
    have htrans := hregisters.trans hregisters'
    rwa [← List.filter_append] at htrans

theorem processWrites_run {requests : List QueuedRequest}
    (hrun : requests.foldlM (processWrite thread) m = .ok m') :
    writeAll requests m.model = .ok m'.model ∧
      Registers thread (leftPending requests m.model) m m' := by
  induction requests generalizing m with
  | nil =>
    obtain rfl := Except.ok.inj hrun
    exact ⟨rfl, .model thread m m.model⟩
  | cons request rest ih =>
    obtain ⟨between, hfirst, hrest⟩ := bind_eq_ok.mp hrun
    obtain ⟨model, hset, hregister⟩ := bind_eq_ok.mp hfirst
    obtain ⟨hmodel, hregisters⟩ := registerWritten_runs hregister
    obtain ⟨hwrite, hregisters'⟩ := ih hrest
    rw [hmodel] at hwrite hregisters'
    have htrans := (Registers.model thread m model).trans hregisters |>.trans hregisters'
    have hleft : leftPending (request :: rest) m.model =
        (request.reg.identifiers.filter fun id =>
          (model.registers id).nextToSut ≠ (model.registers id).lastToSut) ++
        leftPending rest model := by
      simp only [leftPending, writtenRegisters, hset]
    refine ⟨bind_eq_ok.mpr ⟨model, hset, hwrite⟩, ?_⟩
    rw [hleft]
    exact htrans

theorem registerAwaited_run {checkExpected : Bool} {id : Nat}
    (hrun : registerAwaited checkExpected thread m id = .ok m') : Awaits thread [id] m m' := by
  obtain ⟨found, hfound, hrest⟩ := bind_eq_ok.mp hrun
  cases found with
  | none => cases hrest
  | some reg =>
    obtain rfl := SystemModel.registerWithId_eq_some hfound
    obtain rfl := Except.ok.inj hrest
    let reg := if checkExpected then (m.model.registers id).setCheckExpected true
      else m.model.registers id
    have hreg : reg.nextToSut = (m.model.registers id).nextToSut ∧
        reg.lastToSut = (m.model.registers id).lastToSut := by
      cases checkExpected
      · exact ⟨rfl, rfl⟩
      · exact ⟨rfl, rfl⟩
    let model := m.model.setRegister id (reg.setPendingForRead true)
    refine ⟨?_, (Registers.model thread m model).trans (registerPendingThread_registers id)⟩
    rw [registerPendingThread_model]
    refine .setRegister hreg.1 hreg.2 ?_ (List.Subset.refl _)
    simp [Register.setPendingForRead]

theorem processRead_run {request : QueuedRequest} (hrun : processRead thread m request = .ok m') :
    Awaits thread request.reg.identifiers m m' := by
  obtain ⟨model, hset, hrest⟩ := bind_eq_ok.mp hrun
  have hexpected := setExpectedFromSut_requested request.reg request.value request.mask m.model
    model hset
  have hawaits := awaits_runs (fun id => [id]) (registerAwaited true thread)
    registerAwaited_run hrest
  rw [List.flatMap_singleton'] at hawaits
  exact Awaits.trans ⟨hexpected, .model thread m model⟩ hawaits

theorem processRefresh_run {request : QueuedRequest}
    (hrun : processRefresh thread m request = .ok m') :
    Awaits thread request.reg.identifiers m m' := by
  have hawaits := awaits_runs (fun id => [id]) (registerAwaited false thread)
    registerAwaited_run hrun
  rwa [List.flatMap_singleton'] at hawaits

theorem processQueuedRequests_run {requests : QueuedRequests}
    (hrun : m.processQueuedRequests thread requests = .ok m') :
    ∃ written, writeAll requests.queuedWrites m.model = .ok written ∧
      Requested (readIds requests) written m'.model ∧
      Registers thread (leftPending requests.queuedWrites m.model ++ readIds requests) m m' := by
  obtain ⟨afterWrites, hwrites, hrest⟩ := bind_eq_ok.mp hrun
  obtain ⟨afterRefreshes, hrefreshes, hreads⟩ := bind_eq_ok.mp hrest
  obtain ⟨hwritten, hregisters⟩ := processWrites_run hwrites
  have hrefreshed := awaits_runs (fun request => request.reg.identifiers) (processRefresh thread)
    processRefresh_run hrefreshes
  have hread := awaits_runs (fun request => request.reg.identifiers) (processRead thread)
    processRead_run hreads
  have hawaits := hrefreshed.trans hread
  rw [← List.flatMap_append] at hawaits
  exact ⟨afterWrites.model, hwritten, hawaits.requested, hregisters.trans hawaits.registers⟩

/-! ### Data cycles -/

theorem Consistent.releaseServedThreads (h : m.Consistent) : m.releaseServedThreads.Consistent ∧
    m.releaseServedThreads.awaited = m.awaited := by
  have hawaited : m.releaseServedThreads.awaited = m.awaited := by
    funext client
    unfold awaited SystemModelManager.releaseServedThreads
    dsimp only
    split
    · rfl
    · rfl
  refine ⟨⟨hawaited ▸ h.agree, fun client hproceed => ?_⟩, hawaited⟩
  rw [hawaited]
  unfold SystemModelManager.releaseServedThreads at hproceed
  dsimp only at hproceed
  split at hproceed
  · rename_i hserved
    unfold isServed at hserved
    exact (of_decide_eq_true hserved).2
  · exact h.canProceed client hproceed

theorem releaseServedThreads_releases (hpending : thread ∈ m.pendingThreads)
    (hnone : m.awaited thread = ∅) : (m.releaseServedThreads.appData thread).canProceed = true ∧
      thread ∉ m.releaseServedThreads.pendingThreads := by
  have hserved : m.isServed thread = true := decide_eq_true ⟨hpending, hnone⟩
  unfold releaseServedThreads
  dsimp only
  rw [if_pos hserved, Finset.mem_filter, hserved]
  exact ⟨rfl, fun h => Bool.noConfusion h.2⟩

theorem Consistent.reportServedRegister (h : m.Consistent) (regId : Nat) :
    (m.reportServedRegister regId).Consistent ∧
      ∀ client, (m.reportServedRegister regId).awaited client = (m.awaited client).erase regId := by
  let served (data : ApplicationData) : ApplicationData :=
    { data with pendingRegistersIds := data.pendingRegistersIds.erase regId }
  have happData : ∀ client, (m.reportServedRegister regId).appData client =
      if client ∈ (m.regIdToAppData.filter (·.1 = regId)).map Prod.snd
      then served (m.appData client) else m.appData client :=
    WaitingSets.foldl_update (f := served) (fun data => by simp [served]) _ m.appData
  have hawaited : ∀ client,
      (m.reportServedRegister regId).awaited client = (m.awaited client).erase regId := by
    intro client
    unfold awaited
    rw [happData]
    by_cases hwaits : client ∈ (m.regIdToAppData.filter (·.1 = regId)).map Prod.snd
    · rw [if_pos hwaits]
    · rw [if_neg hwaits]
      exact (Finset.erase_eq_of_notMem (mt (h.agree.mem_waiting regId client).mpr hwaits)).symm
  refine ⟨⟨h.agree.serve hawaited, fun client hproceed => ?_⟩, hawaited⟩
  have hbefore : (m.appData client).canProceed = true := by
    rw [happData] at hproceed
    split at hproceed
    · exact hproceed
    · exact hproceed
  rw [hawaited, h.canProceed client hbefore, Finset.erase_empty]

theorem Consistent.reportServedRegisters (h : m.Consistent) (activeRegisters : List Nat) :
    Serves activeRegisters m (m.reportServedRegisters activeRegisters) := by
  induction activeRegisters generalizing m with
  | nil => exact ⟨rfl, fun client id => by simp [SystemModelManager.reportServedRegisters], h⟩
  | cons regId rest ih =>
    obtain ⟨hconsistent, hawaited⟩ := h.reportServedRegister regId
    have hfirst : Serves [regId] m (m.reportServedRegister regId) := by
      refine ⟨rfl, fun client id => ?_, hconsistent⟩
      rw [hawaited, Finset.mem_erase, List.mem_singleton]
      exact and_comm
    exact hfirst.trans (ih hconsistent)

def served (services : List Service) : List Nat :=
  services.flatMap fun service => service.visitor.activeRegisters

/-- The register has been on the active path and has been updated. -/
def Service.Serves (service : Service) (id : Nat) : Prop :=
  id ∈ service.visitor.activeRegisters ∧
    (service.configured.registers id).Updated (service.updated.registers id)

theorem reportServedRegisters_model (ids : List Nat) (m : SystemModelManager Thread) :
    (m.reportServedRegisters ids).model = m.model := by
  induction ids generalizing m with
  | nil => rfl
  | cons id rest ih => exact ih (m.reportServedRegister id)

theorem ServesChannels.serves {channels : List Nodes} {services : List Service}
    (h : ServesChannels channels m services m') (hm : m.Consistent) :
    Serves (served services) m m' ∧
      (∀ id, id ∉ served services → m'.model.registers id = m.model.registers id) ∧
      ∀ id ∈ served services, ∃ service ∈ services, service.Serves id := by
  induction h with
  | done m =>
    refine ⟨⟨rfl, fun client id => by simp [served], hm⟩, fun _ _ => rfl, fun id hid => ?_⟩
    cases hid
  | idle hidle hrest ih => exact ih hm
  | empty hpending hvisit hempty hrest ih => exact ih hm
  | @scanned channel channels m m' services visitor fromSutVector updated hpending hvisit hsome
      hupdate hrest ih =>
    obtain ⟨hupdated, hothers⟩ := FromSutUpdater.updateFrom_updated hupdate
    let m₁ : SystemModelManager Thread := { m with model := updated }
    have hreported := (hm.withModel updated).reportServedRegisters visitor.activeRegisters
    obtain ⟨hreleased, hawaited⟩ := hreported.consistent.releaseServedThreads
    obtain ⟨hserves, hsame, hservices⟩ := ih hreleased
    have hfirst : Serves visitor.activeRegisters m
        (m₁.reportServedRegisters visitor.activeRegisters).releaseServedThreads := by
      refine ⟨hreported.managerThreadId, fun client id => ?_, hreleased⟩
      rw [hawaited]
      exact hreported.awaited client id
    refine ⟨hfirst.trans hserves, fun id hid => ?_, fun id hid => ?_⟩
    · obtain ⟨hnow, hlater⟩ := not_or.mp (mt List.mem_append.mpr hid)
      rw [hsame id hlater]
      change ((m₁.reportServedRegisters visitor.activeRegisters).model).registers id = _
      rw [reportServedRegisters_model]
      exact hothers id hnow
    · rcases List.mem_append.mp hid with hnow | hlater
      · exact ⟨_, List.mem_cons_self, hnow, hupdated id hnow⟩
      · obtain ⟨service, hmem, hservice⟩ := hservices id hlater
        exact ⟨service, List.mem_cons_of_mem _ hmem, hservice⟩

theorem configure_steers {algorithm : Option ConfigurationAlgorithm} {root : Nodes}
    {s configured : SystemModel} (hconfigure : configure algorithm root s = .ok configured)
    (id : Nat) : (s.registers id).Steered (configured.registers id) := by
  obtain ⟨s', hvisit, hreturn⟩ := bind_eq_ok.mp hconfigure
  obtain rfl := Except.ok.inj hreturn
  have hvisited := ConfigureVisitor.visit_visited (List.nil_subset _) (List.Subset.refl _) s s'
    hvisit
  exact (hvisited.steered id).trans (PropagatePendingVisitor.propagate_steered root s' id)

theorem reportPending_awaited (thread : Thread) (m : SystemModelManager Thread) :
    (m.reportPending thread).awaited = m.awaited := by
  funext client
  unfold awaited reportPending
  by_cases hclient : client = thread
  · subst hclient
    simp only [Function.update_self]
  · simp only [Function.update_of_ne hclient]

/-! ### Steps -/

/-- The registers that a thread has to wait for: those its writes leave pending, and those it reads or refreshes. -/
def requestedIds (requests : QueuedRequests) (s : SystemModel) : List Nat :=
  leftPending requests.queuedWrites s ++ readIds requests

/-- The event is a data cycle in which the register has been scanned and updated. -/
def Event.Serves (id : Nat) : Event Thread → Prop
  | .dataCycle services => ∃ service ∈ services, service.Serves id
  | _ => False

variable {algorithm : Option ConfigurationAlgorithm} {root : Nodes} {event : Event Thread}

theorem Step.consistent (hstep : Step algorithm root m event m') (hm : m.Consistent) :
    m'.Consistent := by
  cases hstep with
  | processQueuedRequests hprocess =>
    obtain ⟨-, -, -, hregisters⟩ := processQueuedRequests_run hprocess
    exact hregisters.consistent hm
  | @reportPending thread hthread =>
    have hawaited := reportPending_awaited thread m
    refine ⟨hawaited ▸ hm.agree, fun client hproceed => ?_⟩
    rw [hawaited]
    by_cases hclient : client = thread
    · subst hclient
      simp only [SystemModelManager.reportPending, Function.update_self, Bool.false_eq_true]
        at hproceed
    · simp only [SystemModelManager.reportPending, Function.update_of_ne hclient] at hproceed
      exact hm.canProceed client hproceed
  | @dataCycle _ configured services hconfigure hpending hserves =>
    have hconfigured := hm.withModel configured
    exact (hserves.serves hconfigured).1.consistent
  | @endOfDataCycles configured hconfigure hidle =>
    have hconfigured := hm.withModel configured
    exact hconfigured.releaseServedThreads.1

/-- A thread goes on waiting for a register until it's been served. -/
theorem Step.awaited (hstep : Step algorithm root m event m') (hm : m.Consistent) {client : Thread}
    {id : Nat} (hid : id ∈ m.awaited client) : id ∈ m'.awaited client ∨ event.Serves id := by
  cases hstep with
  | processQueuedRequests hprocess =>
    obtain ⟨-, -, -, hregisters⟩ := processQueuedRequests_run hprocess
    exact .inl ((hregisters.awaited client id).mpr (.inl hid))
  | reportPending hthread =>
    rw [reportPending_awaited]
    exact .inl hid
  | @dataCycle _ configured services hconfigure hpending hserves =>
    have hconfigured := hm.withModel configured
    obtain ⟨hserved, -, hservices⟩ := hserves.serves hconfigured
    by_cases hmem : id ∈ served services
    · exact .inr (hservices id hmem)
    · exact .inl ((hserved.awaited client id).mpr ⟨hid, hmem⟩)
  | @endOfDataCycles configured hconfigure hidle =>
    have hconfigured := hm.withModel configured
    rw [hconfigured.releaseServedThreads.2]
    exact .inl hid

end SystemModelManager

end Mast
