import Mast.Manager.Operable

/-!
# Every application returns

Applications hand their requests over at any time, and wait in `iApply`. Over a tree of MIBs the manager always gets through the data cycles it begins, whatever comes back from the device: no more of them are left than can be read off the tree, and when nothing is pending any more all applications that were waiting go on.
-/

namespace Mast

open Multiplexers Outcome Runs

namespace SystemModelManager

variable {Thread : Type} [DecidableEq Thread] {m m' : SystemModelManager Thread}
  {mibs : Nat → Mib} {algorithm : ConfigureAlgorithm} {interface : Nat} {channels root : Nodes}
  {event : Event Thread} {services : List Service}

/-! ### What the applications may do -/

/-- A step of an application takes nothing back: its requests are for registers of the tree, and those it writes drive no linker. The steps of the manager are not restricted. -/
structure ApplicationStep (algorithm : ConfigureAlgorithm) (root channels : Nodes)
    (m : SystemModelManager Thread) (event : Event Thread) (m' : SystemModelManager Thread) :
    Prop where
  step : Step algorithm.create root m event m'
  names : event.Names root
  spares : event.Spares channels
  writesOn (thread : Thread) (requests : QueuedRequests) :
    event = .processQueuedRequests thread requests → m.WritesOn thread requests

def Event.IsDataCycle : Event Thread → Prop
  | .dataCycle _ => True
  | _ => False

theorem Event.IsDataCycle.applicationStep (hcycle : event.IsDataCycle)
    (hstep : Step algorithm.create root m event m') :
    ApplicationStep algorithm root channels m event m' := by
  cases event with
  | dataCycle services => exact ⟨hstep, trivial, trivial, fun _ _ heq => by cases heq⟩
  | _ => exact hcycle.elim

/-! ### Between the steps -/

/-- A selector register is waited for by reads only. -/
def AwaitsReads (channels : Nodes) (m : SystemModelManager Thread) : Prop :=
  ∀ thread, ∀ id ∈ m.awaited thread, id ∈ channels.selectorRegisters →
    (m.model.registers id).pendingRead = true

omit [DecidableEq Thread] in
theorem awaitsReads_configured (services : List Service) {configured : SystemModel}
    (hconfigure : configure algorithm.create root m.model = .ok configured)
    (hawaited : ∀ client id, id ∈ m'.awaited client → id ∈ m.awaited client ∧ id ∉ served services)
    (hregisters : ∀ id, id ∉ served services →
      m'.model.registers id = configured.registers id) (h : m.AwaitsReads channels) :
    m'.AwaitsReads channels := by
  intro client id hid hselector
  obtain ⟨hbefore, hnot⟩ := hawaited client id hid
  rw [hregisters id hnot, (configure_steers hconfigure id).pendingRead]
  exact h client id hbefore hselector

theorem Step.awaitsReads (hstep : Step algorithm.create root m event m')
    (hconsistent : m.Consistent) (hspares : event.Spares channels) (h : m.AwaitsReads channels) :
    m'.AwaitsReads channels := by
  cases hstep with
  | @processQueuedRequests _ thread requests hprocess =>
    obtain ⟨written, hwrite, hrequested, hregisters⟩ := processQueuedRequests_run hprocess
    intro client id hid hselector
    rw [hrequested.pendingRead, (writeAll_steers hwrite id).pendingRead]
    rcases (hregisters.awaited client id).mp hid with hbefore | ⟨-, -, hnow⟩
    · exact .inl (h client id hbefore hselector)
    · rcases List.mem_append.mp hnow with hwritten | hread
      · obtain ⟨request, hrequest, hnamed⟩ := mem_writtenRegisters hwritten
        exact absurd hselector (hspares request hrequest id hnamed)
      · exact .inr hread
  | reportPending hthread =>
    intro client id hid hselector
    rw [reportPending_awaited] at hid
    exact h client id hid hselector
  | @dataCycle _ configured services hconfigure hpending hserves =>
    obtain ⟨hserved, hregisters, -⟩ := hserves.serves (hconsistent.withModel configured)
    exact awaitsReads_configured services hconfigure
      (fun client id => (hserved.awaited client id).mp) hregisters h
  | @endOfDataCycles configured hconfigure hidle =>
    have hreleased := (hconsistent.withModel configured).releaseServedThreads.2
    refine awaitsReads_configured [] hconfigure (fun client id hid => ?_)
      (fun _ _ => rfl) h
    rw [hreleased] at hid
    exact ⟨hid, List.not_mem_nil⟩

/-- What holds of the manager of a tree between the steps. -/
structure Waiting (mibs : Nat → Mib) (root channels : Nodes) (m : SystemModelManager Thread) :
    Prop where
  consistent : m.Consistent
  operable : channels.Operable mibs m.model
  nodes : m.AwaitsNodes root
  reads : m.AwaitsReads channels
  work : m.AwaitsWork

omit [DecidableEq Thread] in
theorem Idle.waiting (h : m.Idle) (hoperable : channels.Operable mibs m.model) :
    m.Waiting mibs root channels := by
  have hnobody : ∀ {thread id}, id ∉ m.awaited thread := by
    intro thread id hid
    rw [h.awaited] at hid
    exact absurd hid (Finset.notMem_empty id)
  exact ⟨h.consistent, hoperable, fun _ _ hid => absurd hid hnobody,
    fun _ _ hid => absurd hid hnobody, fun _ _ hid => absurd hid hnobody⟩

section

variable (hwired : channels.Wired mibs []) (hinterface : interface ∉ channels.parentIds)
  (hroot : root = .parent .accessInterface interface channels .none)
include hwired hinterface hroot

omit [DecidableEq Thread] in
/-- Configuring the selectors takes nothing back from a thread that waits. -/
theorem Waiting.configuresOn (h : m.Waiting mibs root channels) (services : List Service) :
    m.ConfiguresOn algorithm.create root services := by
  intro configured hconfigure client id hid hsame hnone
  rw [hroot] at hconfigure
  have hreconfigured := configure_reconfigured hwired hinterface h.operable.ready hconfigure
  have hreg : id ∈ channels.registerIds := by
    have hmem := h.nodes client id hid
    rw [hroot] at hmem
    exact (List.mem_append.mp hmem).resolve_right List.not_mem_nil
  have hfree : id ∉ channels.selectorRegisters := by
    intro hselector
    rw [h.reads client id hid hselector] at hnone
    cases hnone
  rw [hreconfigured.flagged id hreg hfree] at hsame
  rcases h.work client id hid with hread | hdiffers
  · rw [hread] at hnone
    cases hnone
  · exact absurd hsame hdiffers

theorem ApplicationStep.allowed (hstep : ApplicationStep algorithm root channels m event m')
    (h : m.Waiting mibs root channels) : m.Allows algorithm.create root event := by
  cases event with
  | processQueuedRequests thread requests => exact hstep.writesOn thread requests rfl
  | reportPending thread => trivial
  | dataCycle services => exact h.configuresOn hwired hinterface hroot services
  | endOfDataCycles => exact h.configuresOn hwired hinterface hroot []

theorem ApplicationStep.waiting (hstep : ApplicationStep algorithm root channels m event m')
    (h : m.Waiting mibs root channels) : m'.Waiting mibs root channels where
  consistent := hstep.step.consistent h.consistent
  operable := by
    have hrun := hstep.step
    rw [hroot] at hrun
    exact hrun.operable hwired hinterface hstep.spares h.operable
  nodes := hstep.step.awaitsNodes h.consistent hstep.names h.nodes
  reads := hstep.step.awaitsReads h.consistent hstep.spares h.reads
  work := (hstep.step.awaitsWork_iff h.consistent h.work).mpr
    (hstep.allowed hwired hinterface hroot h)

theorem applications_waiting {m₀ : SystemModelManager Thread} {events : List (Event Thread)}
    (hidle : m₀.Idle) (hoperable : channels.Operable mibs m₀.model)
    (hrun : Run (ApplicationStep algorithm root channels) m₀ events m) :
    m.Waiting mibs root channels :=
  hrun.invariant (C := fun _ => True)
    (fun _ _ _ hs _ hstep => hstep.waiting hwired hinterface hroot hs)
    (hidle.waiting hoperable) fun _ _ => trivial

/-! ### The data cycles end -/

/-- Data cycles one after the other: each of them leaves less to do. -/
theorem dataCycles_left {cycles : List (Event Thread)} {configured : SystemModel}
    (hloop : Run (Step algorithm.create root) m cycles m')
    (hcycles : ∀ event ∈ cycles, event.IsDataCycle) (h : m.Waiting mibs root channels)
    (hconfigure : configure algorithm.create root m.model = .ok configured) :
    m'.Waiting mibs root channels ∧ ∃ configured',
      configure algorithm.create root m'.model = .ok configured' ∧
      cycles.length + (channels.parts mibs channels.selectorRegisters configured').sum ≤
        (channels.parts mibs channels.selectorRegisters configured).sum := by
  induction hloop generalizing configured with
  | nil m => exact ⟨h, configured, hconfigure, by rw [List.length_nil, Nat.zero_add]⟩
  | @cons m m₁ m' event cycles hstep hrest ih =>
    have hcycle := hcycles event List.mem_cons_self
    have happlication : ApplicationStep algorithm root channels m event m₁ :=
      hcycle.applicationStep hstep
    have hwaiting := happlication.waiting hwired hinterface hroot h
    subst hroot
    cases hstep with
    | @dataCycle _ configured₁ services hconfigure₁ hpending hserves =>
      obtain rfl : configured₁ = configured := Except.ok.inj (hconfigure₁.symm.trans hconfigure)
      have hreconfigured := configure_reconfigured hwired hinterface h.operable.ready hconfigure
      have hoperable := configured_operable hwired hinterface h.operable hconfigure
      rw [channels_eq hwired] at hserves
      have hserved : Mast.Serves (channels.served mibs configured₁) configured₁ m₁.model :=
        hserves.model_serves hwired hoperable.ready hoperable.scannable
      obtain ⟨configured₂, hconfigure₂, hreconfigured₂⟩ : ∃ s', configureModel algorithm _ _ =
          .ok s' ∧ Reconfigured mibs algorithm interface channels m₁.model s' :=
        configureModel_reconfigured hwired hinterface hwaiting.operable.ready
      have hturn : Turn mibs algorithm interface channels (channels.served mibs configured₁)
          m.model configured₁ m₁.model configured₂ :=
        ⟨hwired, h.operable.ready, hreconfigured, hserved, hreconfigured₂⟩
      have hlt := hturn.parts_sum_lt (of_decide_eq_true hpending)
      obtain ⟨hend, configured', hconfigure', hle⟩ := ih
        (fun event hmem => hcycles event (List.mem_cons_of_mem _ hmem)) hwaiting hconfigure₂
      refine ⟨hend, configured', hconfigure', ?_⟩
      rw [List.length_cons]
      omega
    | _ => exact hcycle.elim

/-- The loop never gets stuck: it ends, or it goes on with a data cycle for any answers of the device. -/
theorem Waiting.goesOn (h : m.Waiting mibs root channels) :
    (∃ m', Step algorithm.create root m .endOfDataCycles m') ∨
      ∀ protocol : Nat → Bits → Bits,
        (∀ channelId vector, (protocol channelId vector).length = vector.length) →
        ∃ configured services m', configureModel algorithm root m.model = .ok configured ∧
          doHierarchicalDataCycle protocol interface channels configured = .ok m'.model ∧
          Step algorithm.create root m (.dataCycle services) m' := by
  subst hroot
  obtain ⟨configured, hconfigure, -⟩ : ∃ s', configureModel algorithm _ m.model = .ok s' ∧
    Reconfigured mibs algorithm interface channels m.model s' :=
    configureModel_reconfigured hwired hinterface h.operable.ready
  have hoperable := configured_operable hwired hinterface h.operable hconfigure
  by_cases hpending : configured.pendingCounts interface ≠ 0
  · right
    intro protocol hprotocol
    obtain ⟨updated, hcycle, -⟩ :=
      doChannels_serves hprotocol 1 hwired hoperable.ready hoperable.scannable
    have hchannels : doChannels protocol 1 channels
        ({ m with model := configured } : SystemModelManager Thread).model = .ok updated := hcycle
    obtain ⟨services, m', hserves, hmodel⟩ := exists_servesChannels hchannels
    refine ⟨configured, services, m', hconfigure, ?_, .dataCycle hconfigure ?_ ?_⟩
    · rw [doHierarchicalDataCycle, if_pos hpending, hmodel]
      exact hcycle
    · exact decide_eq_true hpending
    · rw [channels_eq hwired]
      exact hserves
  · exact .inl ⟨_, .endOfDataCycles hconfigure (decide_eq_false hpending)⟩

theorem Waiting.ends (h : m.Waiting mibs root channels) :
    ∃ cycles m' m'', Run (Step algorithm.create root) m cycles m' ∧
      (∀ event ∈ cycles, event.IsDataCycle) ∧
      Step algorithm.create root m' .endOfDataCycles m'' := by
  obtain ⟨configured, hconfigure, -⟩ : ∃ s', configureModel algorithm
      (.parent .accessInterface interface channels .none) m.model = .ok s' ∧
    Reconfigured mibs algorithm interface channels m.model s' :=
    configureModel_reconfigured hwired hinterface h.operable.ready
  rw [← hroot] at hconfigure
  -- on what the tree has left, which every data cycle lowers
  induction hleft : (channels.parts mibs channels.selectorRegisters configured).sum
    using Nat.strong_induction_on generalizing m configured with
  | _ left ih =>
    rcases h.goesOn hwired hinterface hroot with ⟨m'', hend⟩ | hcycle
    · exact ⟨[], m, m'', .nil m, fun _ hmem => absurd hmem List.not_mem_nil, hend⟩
    · obtain ⟨-, services, m₁, -, -, hstep⟩ := hcycle (fun _ vector => vector) fun _ _ => rfl
      have hone : ∀ event ∈ [(.dataCycle services : Event Thread)], event.IsDataCycle := by
        intro event hmem
        rw [List.mem_singleton.mp hmem]
        trivial
      obtain ⟨hwaiting, configured₁, hconfigure₁, hle⟩ :=
        dataCycles_left hwired hinterface hroot (.cons hstep (.nil m₁)) hone h hconfigure
      rw [List.length_singleton] at hle
      obtain ⟨cycles, m', m'', hrest, hcycles, hend⟩ :=
        ih _ (by omega) hwaiting configured₁ hconfigure₁ rfl
      refine ⟨.dataCycle services :: cycles, m', m'', .cons hstep hrest, ?_, hend⟩
      exact List.forall_mem_cons.mpr ⟨trivial, hcycles⟩

end

theorem endOfDataCycles_awaited (hconsistent : m.Consistent)
    (hend : Step algorithm.create root m .endOfDataCycles m') : m'.awaited = m.awaited := by
  cases hend with
  | endOfDataCycles hconfigure hidle =>
    exact (hconsistent.withModel _).releaseServedThreads.2

/-! ### Who has been waiting goes on -/

/-- The thread is among the pending ones, or has been released. -/
def Returning (thread : Thread) (m : SystemModelManager Thread) : Prop :=
  thread ∈ m.pendingThreads ∨ (m.appData thread).canProceed = true

theorem Returning.releaseServedThreads {thread : Thread} (h : m.Returning thread) :
    m.releaseServedThreads.Returning thread := by
  have hnow : m.isServed thread = true ∨ m.isServed thread = false := by
    cases m.isServed thread
    · exact .inr rfl
    · exact .inl rfl
  unfold Returning SystemModelManager.releaseServedThreads
  dsimp only
  rcases hnow with hserved | hwaits
  · rw [if_pos hserved]
    exact .inr rfl
  · rw [hwaits, if_neg Bool.false_ne_true, Finset.mem_filter]
    exact h.imp_left fun hmem => ⟨hmem, hwaits⟩

theorem reportServedRegister_canProceed (regId : Nat) (thread : Thread)
    (m : SystemModelManager Thread) :
    ((m.reportServedRegister regId).appData thread).canProceed =
      (m.appData thread).canProceed := by
  have hfold := WaitingSets.foldl_update
    (f := fun data : ApplicationData =>
      { data with pendingRegistersIds := data.pendingRegistersIds.erase regId })
    (fun data => by simp) ((m.regIdToAppData.filter (·.1 = regId)).map Prod.snd) m.appData thread
  unfold reportServedRegister
  simp only
  rw [hfold]
  split <;> rfl

theorem Returning.reportServedRegisters {thread : Thread} {ids : List Nat}
    (h : m.Returning thread) : (m.reportServedRegisters ids).Returning thread := by
  induction ids generalizing m with
  | nil => exact h
  | cons id rest ih =>
    apply ih
    unfold Returning at h ⊢
    rw [reportServedRegister_canProceed]
    exact h

theorem ServesChannels.returning {nodes : List Nodes} {thread : Thread}
    (hserves : ServesChannels nodes m services m') (h : m.Returning thread) :
    m'.Returning thread := by
  induction hserves with
  | done m => exact h
  | idle _ _ ih => exact ih h
  | empty _ _ _ _ ih => exact ih h
  | @scanned channel channels m m' services visitor fromSutVector updated _ _ _ _ _ ih =>
    have hupdated : Returning thread { m with model := updated } := h
    exact ih hupdated.reportServedRegisters.releaseServedThreads

theorem dataCycles_returning {cycles : List (Event Thread)} {thread : Thread}
    (hloop : Run (Step algorithm.create root) m cycles m')
    (hcycles : ∀ event ∈ cycles, event.IsDataCycle) (h : m.Returning thread) :
    m'.Returning thread := by
  refine hloop.invariant (fun s event s' hs hcycle hstep => ?_) h hcycles
  cases hstep with
  | dataCycle hconfigure hpending hserves => exact hserves.returning hs
  | _ => exact hcycle.elim

/-- Whatever the applications have done before, and whatever comes back from the device, the data cycles end after as many as can be read off the tree at most. None of them gets stuck, and at their end nobody waits any more: all threads that were pending can proceed. -/
theorem applications_return (hwired : channels.Wired mibs [])
    (hinterface : interface ∉ channels.parentIds)
    (hroot : root = .parent .accessInterface interface channels .none)
    {m₀ : SystemModelManager Thread} {events cycles : List (Event Thread)} (hidle : m₀.Idle)
    (hoperable : channels.Operable mibs m₀.model)
    (hrun : Run (ApplicationStep algorithm root channels) m₀ events m)
    (hcycles : ∀ event ∈ cycles, event.IsDataCycle)
    (hloop : Run (Step algorithm.create root) m cycles m') :
    cycles.length ≤ channels.budget ∧
      ((∃ m'', Step algorithm.create root m' .endOfDataCycles m'') ∨
        ∀ protocol : Nat → Bits → Bits,
          (∀ channelId vector, (protocol channelId vector).length = vector.length) →
          ∃ configured services m'', configureModel algorithm root m'.model = .ok configured ∧
            doHierarchicalDataCycle protocol interface channels configured = .ok m''.model ∧
            Step algorithm.create root m' (.dataCycle services) m'') ∧
      ∀ m'', Step algorithm.create root m' .endOfDataCycles m'' →
        (∀ thread, (m''.appData thread).pendingRegistersIds = ∅) ∧ m''.pendingThreads = ∅ ∧
          ∀ thread ∈ m.pendingThreads, (m''.appData thread).canProceed = true := by
  have hwaiting := applications_waiting hwired hinterface hroot hidle hoperable hrun
  obtain ⟨configured, hconfigure, -⟩ : ∃ s', configureModel algorithm
      (.parent .accessInterface interface channels .none) m.model = .ok s' ∧
    Reconfigured mibs algorithm interface channels m.model s' :=
    configureModel_reconfigured hwired hinterface hwaiting.operable.ready
  rw [← hroot] at hconfigure
  obtain ⟨hwaiting', configured', -, hle⟩ :=
    dataCycles_left hwired hinterface hroot hloop hcycles hwaiting hconfigure
  have hbudget := Nodes.parts_sum_le_budget mibs channels.selectorRegisters configured channels
  refine ⟨by omega, hwaiting'.goesOn hwired hinterface hroot, fun m'' hend => ?_⟩
  have hparents : root.parentIds.Nodup := by
    rw [hroot, show (Nodes.parent .accessInterface interface channels .none).parentIds =
      interface :: channels.parentIds from congrArg _ (List.append_nil _)]
    exact List.nodup_cons.mpr ⟨hinterface, hwired.parents⟩
  have hallowed : m'.ConfiguresOn algorithm.create root [] :=
    hwaiting'.configuresOn hwired hinterface hroot []
  have hwork := (hend.awaitsWork_iff hwaiting'.consistent hwaiting'.work).mpr hallowed
  obtain ⟨hnobody, hnone, -⟩ := endOfDataCycles_releases hroot hparents hend
    hwaiting'.consistent hwaiting'.nodes hwork
  refine ⟨fun thread => ?_, hnone, fun thread hthread => ?_⟩
  · have hsame := endOfDataCycles_awaited hwaiting'.consistent hend
    exact (congrFun hsame thread).trans (hnobody thread)
  · have hreturning : m'.Returning thread := dataCycles_returning hloop hcycles (.inl hthread)
    cases hend with
    | @endOfDataCycles configured hconfigure hidle =>
      have hend : Returning thread { m' with model := configured } := hreturning
      rcases hend.releaseServedThreads with hpending | hproceed
      · rw [hnone] at hpending
        exact absurd hpending (Finset.notMem_empty thread)
      · exact hproceed

end SystemModelManager

/-! ### An application of a segment behind a segment -/

/-- The manager of the segments, with both of them closed and the inner register written. -/
def nestedManager : SystemModelManager Nat where
  model := nestedWritten
  managerThreadId := 0
  appData _ := ⟨false, ∅⟩
  regIdToAppData := []
  pendingThreads := ∅

theorem nestedWritten_operable : nestedSegments.Operable nestedMibs nestedWritten where
  ready := nestedWritten_ready
  isRegister := nestedWritten_scannable.isRegister
  fixedWidth reg _ := by
    unfold nestedWritten
    simp only
    split
    · exact ⟨rfl, Nat.one_pos, fun hmask => absurd rfl hmask⟩
    · exact ⟨rfl, Nat.one_pos, fun hmask => absurd rfl hmask⟩
  width_lt := nestedWritten_scannable.width_lt

def nestedRequests : QueuedRequests := ⟨[⟨.register 2, [true], []⟩], [], []⟩

open SystemModelManager in
theorem nestedSegments_return :
    ∃ (m m' m'' : SystemModelManager Nat) (cycles : List (Event Nat)),
      1 ∈ m.pendingThreads ∧ 2 ∈ m.awaited 1 ∧
      Run (Step ConfigureAlgorithm.lastLazy.create
        (.parent .accessInterface 4 nestedSegments .none)) m cycles m' ∧
      Step ConfigureAlgorithm.lastLazy.create (.parent .accessInterface 4 nestedSegments .none) m'
        .endOfDataCycles m'' ∧
      cycles ≠ [] ∧ cycles.length ≤ nestedSegments.budget ∧ (m''.appData 1).canProceed = true := by
  obtain ⟨m, hprocess, hawaited, hmanager⟩ :
      ∃ m, nestedManager.processQueuedRequests 1 nestedRequests = .ok m ∧ 2 ∈ m.awaited 1 ∧
        m.managerThreadId = 0 := ⟨_, rfl, by decide, rfl⟩
  have hwritesOn : nestedManager.WritesOn 1 nestedRequests := by
    intro written hwrite id hsame hread hnot
    obtain rfl := Except.ok.inj hwrite
    refine ⟨fun client => Finset.notMem_empty id, fun _ hid => ?_⟩
    obtain rfl : id = 2 := List.mem_singleton.mp hid
    exact absurd hsame (by decide)
  have hrequests : ApplicationStep .lastLazy (.parent .accessInterface 4 nestedSegments .none)
      nestedSegments nestedManager (.processQueuedRequests 1 nestedRequests) m := by
    refine ⟨.processQueuedRequests hprocess, ?_, ?_, fun thread requests heq => ?_⟩
    · intro request hrequest
      rw [List.mem_singleton.mp hrequest]
      decide
    · intro request hrequest
      rw [List.mem_singleton.mp hrequest]
      decide
    · obtain ⟨rfl, rfl⟩ := Event.processQueuedRequests.inj heq
      exact hwritesOn
  have hpending : ApplicationStep .lastLazy (.parent .accessInterface 4 nestedSegments .none)
      nestedSegments m (.reportPending 1) (m.reportPending 1) :=
    ⟨.reportPending (by rw [hmanager]; decide), trivial, trivial, fun _ _ heq => by cases heq⟩
  have hthread : 1 ∈ (m.reportPending 1).pendingThreads := Finset.mem_insert_self 1 _
  have hwaits : 2 ∈ (m.reportPending 1).awaited 1 := by
    rw [reportPending_awaited]
    exact hawaited
  have hidle : nestedManager.Idle := ⟨fun _ => rfl, rfl, rfl⟩
  have hrun := Run.cons hrequests (.cons hpending (.nil _))
  have hwaiting := applications_waiting nestedSegments_wired (by decide) rfl hidle
    nestedWritten_operable hrun
  obtain ⟨cycles, m', m'', hloop, hcycles, hend⟩ :=
    hwaiting.ends nestedSegments_wired (by decide) rfl
  have hreturn := applications_return nestedSegments_wired (by decide) rfl hidle
    nestedWritten_operable hrun hcycles hloop
  obtain ⟨hnobody, -, hproceed⟩ := hreturn.2.2 m'' hend
  refine ⟨m.reportPending 1, m', m'', cycles, hthread, hwaits, hloop, hend, fun hnone => ?_,
    hreturn.1, hproceed 1 hthread⟩
  -- without a data cycle the application would wait for its register still
  subst hnone
  cases hloop
  have hsame := congrFun (endOfDataCycles_awaited hwaiting.consistent hend) 1
  rw [← hsame] at hwaits
  exact Finset.notMem_empty 2 (hnobody 1 ▸ hwaits)

end Mast
