import Mast.Manager.Waiting

/-!
# A released thread has been served

The thread of an `iApply` is let go when it waits for no register any more. It began to wait for a register when the request for it was processed, and only a data cycle that scans the register ends that. A write that gives a register its `LastToSut` back is no such request: there is nothing to scan for it.
-/

namespace Mast

open Runs

namespace SystemModelManager

variable {Thread : Type} [DecidableEq Thread] {algorithm : Option ConfigurationAlgorithm}
  {root : Nodes} {m m' : SystemModelManager Thread} {events : List (Event Thread)}

theorem run_consistent (hrun : Run (Step algorithm root) m events m') (hm : m.Consistent) :
    m'.Consistent :=
  hrun.invariant (C := fun _ => True) (fun _ _ _ hs _ hstep => hstep.consistent hs) hm
    fun _ _ => trivial

theorem run_awaited (hrun : Run (Step algorithm root) m events m') (hm : m.Consistent)
    {client : Thread} {id : Nat} (hid : id ∈ m.awaited client) :
    id ∈ m'.awaited client ∨ ∃ event ∈ events, event.Serves id := by
  induction hrun with
  | nil => exact .inl hid
  | cons hstep _ ih =>
    rcases hstep.awaited hm hid with hlater | hserved
    · refine (ih (hstep.consistent hm) hlater).imp_right fun ⟨event, hevent, hserves⟩ => ?_
      exact ⟨event, List.mem_cons_of_mem _ hevent, hserves⟩
    · exact .inr ⟨_, List.mem_cons_self, hserved⟩

end SystemModelManager

open SystemModelManager

/-- In every run from a state in which nobody waits, the sets of the threads and `m_regIdToAppData` agree; and when a thread can proceed after its requests have been processed, each register it had to wait for has been scanned and updated since. -/
theorem iApply_served {Thread : Type} [DecidableEq Thread]
    {algorithm : Option ConfigurationAlgorithm} {root : Nodes} {m₀ m : SystemModelManager Thread}
    {before : List (Event Thread)} (hidle : m₀.Idle)
    (hbefore : Run (Step algorithm root) m₀ before m) :
    (∀ id thread, (id, thread) ∈ m.regIdToAppData ↔
        id ∈ (m.appData thread).pendingRegistersIds) ∧
      m.regIdToAppData.Nodup ∧
      ∀ thread requests m' after m'', thread ≠ m.managerThreadId →
        m.processQueuedRequests thread requests = .ok m' →
        Run (Step algorithm root) m' after m'' → (m''.appData thread).canProceed = true →
        ∀ id ∈ requestedIds requests m.model, ∃ event ∈ after, event.Serves id := by
  have hm := run_consistent hbefore hidle.consistent
  refine ⟨hm.agree.mem_iff, hm.agree.nodup, ?_⟩
  intro thread requests m' after m'' hthread hprocess hafter hproceed id hid
  obtain ⟨-, -, -, hregisters⟩ := processQueuedRequests_run hprocess
  have hm' := hregisters.consistent hm
  have hawaited : id ∈ m'.awaited thread :=
    (hregisters.awaited thread id).mpr (.inr ⟨rfl, hthread, hid⟩)
  have hnone := (run_consistent hafter hm').canProceed thread hproceed
  refine (run_awaited hafter hm' hawaited).resolve_left ?_
  rw [hnone]
  exact Finset.notMem_empty id

/-! ### One register and two threads -/

/-- The register of `singleModel`; the manager's thread has number 0. -/
def singleManager : SystemModelManager Nat where
  model := singleModel
  managerThreadId := 0
  appData _ := ⟨false, ∅⟩
  regIdToAppData := []
  pendingThreads := ∅

theorem singleManager_idle : singleManager.Idle := ⟨fun _ => rfl, rfl, rfl⟩

def writesOf (values : List Bits) : QueuedRequests :=
  ⟨values.map fun value => ⟨.register 0, value, []⟩, [], []⟩

/-- The manager once a thread has handed over the write of a one. -/
def singleAwaited (thread : Nat) : SystemModelManager Nat where
  model := singleModel.setRegister 0 singleWritten
  managerThreadId := 0
  appData := Function.update (fun _ => ⟨false, ∅⟩) thread ⟨false, insert 0 ∅⟩
  regIdToAppData := [(0, thread)]
  pendingThreads := ∅

theorem single_awaited :
    singleManager.processQueuedRequests 1 (writesOf [[true]]) = .ok (singleAwaited 1) := rfl

theorem single_scan :
    ∃ configured visitor updated,
      configure none singleRoot (singleModel.setRegister 0 singleWritten) = .ok configured ∧
      singleRoot.isPending configured = true ∧ singleChannel.isPending configured = true ∧
      ToSutVisitor.visit configured false none singleChannel .start = .ok visitor ∧
      visitor.toSutVector ≠ [] ∧ visitor.activeRegisters = [0] ∧
      FromSutUpdater.updateRegisters visitor.activeRegisters [false] configured = .ok updated :=
  ⟨_, _, _, rfl, rfl, rfl, rfl, List.cons_ne_nil _ _, rfl, rfl⟩

theorem iApply_served_single :
    ∃ services, ∃ event ∈ [.reportPending 1, Event.dataCycle services], event.Serves 0 := by
  obtain ⟨configured, visitor, updated, hconfigure, hroot, hchannel, hvisit, hsome, hactive,
    hupdate⟩ := single_scan
  let services : List Service := [⟨configured, visitor, updated⟩]
  have hserves : ServesChannels singleRoot.channels
      { (singleAwaited 1).reportPending 1 with model := configured } services _ :=
    .scanned hchannel hvisit hsome hupdate (.done _)
  have hrun := Run.cons (.reportPending (by decide))
    (.cons (Step.dataCycle hconfigure hroot hserves) (.nil _))
  refine ⟨services, (iApply_served singleManager_idle (.nil _)).2.2 1 (writesOf [[true]]) _ _ _
    (by decide) single_awaited hrun ?_ 0 (by decide)⟩
  rw [hactive]
  rfl

/-- A second thread takes the write back before the register is scanned. -/
theorem single_restored :
    ∃ m' configured,
      (singleAwaited 1).processQueuedRequests 2 (writesOf [[false]]) = .ok m' ∧
      m'.managerThreadId = 0 ∧ m'.awaited 2 = ∅ ∧
      configure none singleRoot m'.model = .ok configured ∧
      singleRoot.isPending configured = false :=
  ⟨_, _, rfl, rfl, rfl, rfl, rfl⟩

/-- The registers whose `NextToSut` the writes change, and those that are read or refreshed. -/
def changedIds (requests : QueuedRequests) (s : SystemModel) : List Nat :=
  writtenRegisters (fun r r' => r'.nextToSut ≠ r.nextToSut) requests.queuedWrites s ++
    readIds requests

theorem iApply_not_served :
    ¬∀ (Thread : Type) [DecidableEq Thread] (algorithm : Option ConfigurationAlgorithm)
      (root : Nodes) (m₀ m m' m'' : SystemModelManager Thread) (before after : List (Event Thread))
      (thread : Thread) (requests : QueuedRequests), m₀.Idle →
      Run (Step algorithm root) m₀ before m → thread ≠ m.managerThreadId →
      m.processQueuedRequests thread requests = .ok m' → Run (Step algorithm root) m' after m'' →
      (m''.appData thread).canProceed = true → thread ∉ m''.pendingThreads →
      ∀ id ∈ changedIds requests m.model, ∃ event ∈ after, event.Serves id := by
  intro hserved
  obtain ⟨m', configured, hprocess, hmanager, hnone, hconfigure, hidle⟩ := single_restored
  have hbefore : Run (Step none singleRoot) singleManager _ (singleAwaited 1) :=
    .cons (.processQueuedRequests single_awaited) (.nil _)
  have hthread : 2 ≠ m'.managerThreadId := by
    rw [hmanager]
    decide
  have hafter := Run.cons (.reportPending hthread)
    (.cons (Step.endOfDataCycles (m := m'.reportPending 2) hconfigure hidle) (.nil _))
  have hreported : awaited { m'.reportPending 2 with model := configured } 2 = ∅ := by
    change (m'.reportPending 2).awaited 2 = ∅
    rw [reportPending_awaited, hnone]
  obtain ⟨hproceed, hreleased⟩ :=
    releaseServedThreads_releases (Finset.mem_insert_self 2 m'.pendingThreads) hreported
  obtain ⟨event, hevent, hserves⟩ := hserved Nat none singleRoot singleManager (singleAwaited 1)
    m' _ _ _ 2 (writesOf [[false]]) singleManager_idle hbefore (by decide) hprocess hafter hproceed
    hreleased 0 (by decide)
  rcases List.mem_cons.mp hevent with rfl | hevent
  · exact hserves
  · rcases List.mem_cons.mp hevent with rfl | hevent
    · exact hserves
    · cases hevent

end Mast
