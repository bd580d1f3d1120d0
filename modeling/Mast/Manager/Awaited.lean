import Mast.Manager.Served

/-!
# What is waited for is pending

A thread that waits is released once the registers it waits for have been scanned, and only what is pending is scanned. `ProcessQueuedRequests` looks at a register right after each write, so that a later write, or a selector that is configured, can give it its `LastToSut` back while the thread goes on waiting. As long as neither happens, what is waited for is pending, and at the end of the data cycles nobody waits any more.
-/

namespace Mast

open Outcome Runs

namespace SystemModelManager

variable {Thread : Type} (algorithm : Option ConfigurationAlgorithm) (root : Nodes)

/-- Every register that a thread waits for has something to read or to write. -/
def AwaitsWork (m : SystemModelManager Thread) : Prop :=
  ∀ thread, ∀ id ∈ m.awaited thread, (m.model.registers id).HasWork

/-- The writes give no register its `LastToSut` back that a thread waits for, or that one of them has left pending before, unless a read of it is pending too. -/
def WritesOn (m : SystemModelManager Thread) (thread : Thread) (requests : QueuedRequests) : Prop :=
  ∀ written, writeAll requests.queuedWrites m.model = .ok written → ∀ id,
    (written.registers id).nextToSut = (written.registers id).lastToSut →
    (m.model.registers id).pendingRead = false → id ∉ readIds requests →
    (∀ client, id ∉ m.awaited client) ∧
      (thread ≠ m.managerThreadId → id ∉ leftPending requests.queuedWrites m.model)

/-- The selectors are configured without giving a register its `LastToSut` back that a thread waits for, unless a read of it is pending too or it is scanned at once. -/
def ConfiguresOn (m : SystemModelManager Thread) (services : List Service) : Prop :=
  ∀ configured, configure algorithm root m.model = .ok configured → ∀ client,
    ∀ id ∈ m.awaited client,
      (configured.registers id).nextToSut = (configured.registers id).lastToSut →
      (m.model.registers id).pendingRead = false → id ∈ served services

def Allows (m : SystemModelManager Thread) : Event Thread → Prop
  | .processQueuedRequests thread requests => m.WritesOn thread requests
  | .reportPending _ => True
  | .dataCycle services => m.ConfiguresOn algorithm root services
  | .endOfDataCycles => m.ConfiguresOn algorithm root []

/-! ### One step -/

section

variable {algorithm root} {m m' : SystemModelManager Thread}

/-- What is awaited after a configuration and after some registers have been served. -/
theorem awaitsWork_configured_iff {configured : SystemModel} {services : List Service}
    (hconfigure : configure algorithm root m.model = .ok configured)
    (hawaited : ∀ client id, id ∈ m'.awaited client ↔ id ∈ m.awaited client ∧ id ∉ served services)
    (hregisters : ∀ id, id ∉ served services →
      m'.model.registers id = configured.registers id) :
    m'.AwaitsWork ↔ m.ConfiguresOn algorithm root services := by
  have hread : ∀ id, (configured.registers id).pendingRead = (m.model.registers id).pendingRead :=
    fun id => (configure_steers hconfigure id).pendingRead
  constructor
  · intro hm' configured' hconfigure' client id hid hsame hnone
    obtain rfl : configured = configured' := Except.ok.inj (hconfigure.symm.trans hconfigure')
    by_contra hnot
    have hwork := hm' client id ((hawaited client id).mpr ⟨hid, hnot⟩)
    rw [hregisters id hnot, Register.HasWork, hread, hnone] at hwork
    exact hwork.elim Bool.noConfusion fun hdiffers => hdiffers hsame
  · intro hconfigures client id hid
    obtain ⟨hbefore, hnot⟩ := (hawaited client id).mp hid
    rw [hregisters id hnot]
    by_contra hdone
    obtain ⟨hnone, hsame⟩ := not_or.mp hdone
    rw [hread] at hnone
    exact hnot (hconfigures configured hconfigure client id hbefore (not_not.mp hsame)
      (Bool.eq_false_iff.mpr hnone))

end

variable [DecidableEq Thread]

def AllowedStep (m : SystemModelManager Thread) (event : Event Thread)
    (m' : SystemModelManager Thread) : Prop :=
  m.Allows algorithm root event ∧ Step algorithm root m event m'

variable {algorithm root} {m m' : SystemModelManager Thread} {event : Event Thread}

theorem awaitsWork_requests_iff {thread : Thread} {requests : QueuedRequests}
    (hprocess : m.processQueuedRequests thread requests = .ok m') :
    m'.AwaitsWork ↔ m.WritesOn thread requests := by
  obtain ⟨written, hwrite, hrequested, hregisters⟩ := processQueuedRequests_run hprocess
  have hwork : ∀ id, (m'.model.registers id).HasWork ↔
      ((m.model.registers id).pendingRead = true ∨ id ∈ readIds requests) ∨
        (written.registers id).nextToSut ≠ (written.registers id).lastToSut := by
    intro id
    unfold Register.HasWork
    rw [hrequested.pendingRead, hrequested.nextToSut, hrequested.lastToSut,
      (writeAll_steers hwrite id).pendingRead]
  constructor
  · intro hm' written' hwrite' id hsame hread hnot
    obtain rfl : written = written' := Except.ok.inj (hwrite.symm.trans hwrite')
    have hdone : ¬(m'.model.registers id).HasWork := by
      rw [hwork]
      simp [hsame, hread, hnot]
    refine ⟨fun client hid => hdone (hm' client id ?_), fun hthread hid => hdone (hm' thread id ?_)⟩
    · exact (hregisters.awaited client id).mpr (.inl hid)
    · exact (hregisters.awaited thread id).mpr
        (.inr ⟨rfl, hthread, List.mem_append_left _ hid⟩)
  · intro hwrites client id hid
    rw [hwork]
    by_contra hdone
    obtain ⟨hnoRead, hsame⟩ := not_or.mp hdone
    obtain ⟨hread, hnot⟩ := not_or.mp hnoRead
    obtain ⟨hnobody, hleft⟩ := hwrites written hwrite id (not_not.mp hsame)
      (Bool.eq_false_iff.mpr hread) hnot
    rcases (hregisters.awaited client id).mp hid with hbefore | ⟨-, hthread, hnow⟩
    · exact hnobody client hbefore
    · exact (List.mem_append.mp hnow).elim (hleft hthread) hnot

theorem Step.awaitsWork_iff (hstep : Step algorithm root m event m') (hconsistent : m.Consistent)
    (hm : m.AwaitsWork) : m'.AwaitsWork ↔ m.Allows algorithm root event := by
  cases hstep with
  | processQueuedRequests hprocess => exact awaitsWork_requests_iff hprocess
  | reportPending hthread =>
    refine iff_of_true (fun client id hid => ?_) trivial
    rw [reportPending_awaited] at hid
    exact hm client id hid
  | @dataCycle _ configured services hconfigure hpending hserves =>
    obtain ⟨hserved, hregisters, -⟩ := hserves.serves (hconsistent.withModel configured)
    exact awaitsWork_configured_iff hconfigure hserved.awaited hregisters
  | @endOfDataCycles configured hconfigure hidle =>
    have hreleased := (hconsistent.withModel configured).releaseServedThreads.2
    refine awaitsWork_configured_iff hconfigure (fun client id => ?_) fun id _ => rfl
    rw [hreleased]
    simp only [served, List.flatMap_nil, List.not_mem_nil, not_false_eq_true, and_true]
    exact Iff.rfl

/-! ### Runs -/

/-- The requests name registers of the tree. -/
def Event.Names (root : Nodes) : Event Thread → Prop
  | .processQueuedRequests _ requests =>
    ∀ request ∈ requests.queuedWrites ++ (requests.queuedRefreshes ++ requests.queuedReads),
      request.reg.identifiers ⊆ root.registerIds
  | _ => True

/-- Threads wait for registers of the tree. -/
def AwaitsNodes (root : Nodes) (m : SystemModelManager Thread) : Prop :=
  ∀ thread, ∀ id ∈ m.awaited thread, id ∈ root.registerIds

theorem mem_writtenRegisters {P : Register → Register → Bool} {requests : List QueuedRequest}
    {s : SystemModel} {id : Nat} (hid : id ∈ writtenRegisters P requests s) :
    ∃ request ∈ requests, id ∈ request.reg.identifiers := by
  induction requests generalizing s with
  | nil => cases hid
  | cons request rest ih =>
    unfold writtenRegisters at hid
    split at hid
    · cases hid
    · rcases List.mem_append.mp hid with hfirst | hrest
      · exact ⟨request, List.mem_cons_self, (List.mem_filter.mp hfirst).1⟩
      · obtain ⟨other, hmem, hother⟩ := ih hrest
        exact ⟨other, List.mem_cons_of_mem _ hmem, hother⟩

theorem Step.awaitsNodes (hstep : Step algorithm root m event m') (hconsistent : m.Consistent)
    (hnames : event.Names root) (hm : m.AwaitsNodes root) : m'.AwaitsNodes root := by
  cases hstep with
  | @processQueuedRequests _ thread requests hprocess =>
    obtain ⟨written, -, -, hregisters⟩ := processQueuedRequests_run hprocess
    intro client id hid
    rcases (hregisters.awaited client id).mp hid with hbefore | ⟨-, -, hnow⟩
    · exact hm client id hbefore
    · rcases List.mem_append.mp hnow with hwritten | hread
      · obtain ⟨request, hrequest, hid⟩ := mem_writtenRegisters hwritten
        exact hnames request (List.mem_append_left _ hrequest) hid
      · obtain ⟨request, hrequest, hid⟩ := List.mem_flatMap.mp hread
        exact hnames request (List.mem_append_right _ hrequest) hid
  | reportPending hthread =>
    intro client id hid
    rw [reportPending_awaited] at hid
    exact hm client id hid
  | @dataCycle _ configured services hconfigure hpending hserves =>
    obtain ⟨hserved, -, -⟩ := hserves.serves (hconsistent.withModel configured)
    exact fun client id hid => hm client id ((hserved.awaited client id).mp hid).1
  | @endOfDataCycles configured hconfigure hidle =>
    have hreleased := (hconsistent.withModel configured).releaseServedThreads.2
    intro client id hid
    rw [hreleased] at hid
    exact hm client id hid

/-- The tree is idle only if no register in it has something to read or to write. -/
theorem configure_idle {kind : ParentKind} {rootId : Nat} {firstChild : Nodes}
    {s configured : SystemModel} (hroot : root = .parent kind rootId firstChild .none)
    (hparents : root.parentIds.Nodup) (hconfigure : configure algorithm root s = .ok configured)
    (hidle : root.isPending configured = false) :
    ∀ id ∈ root.registerIds, ¬(configured.registers id).HasWork := by
  obtain ⟨s', hvisit, hreturn⟩ := bind_eq_ok.mp hconfigure
  obtain rfl := Except.ok.inj hreturn
  subst hroot
  have hexact := countsExact_propagate hparents hvisit
  have hparent : (rootId, firstChild) ∈
      (Nodes.parent kind rootId firstChild .none).parents := List.mem_cons_self
  intro id hid hwork
  have hpending := hexact.work_pending id hid hwork
  have hbelow : id ∈ firstChild.registerIds := by
    rcases List.mem_append.mp hid with hbelow | hnone
    · exact hbelow
    · cases hnone
  have hcount := (hexact.isPending_iff hparent).mpr ⟨id, hbelow, hpending⟩
  exact of_decide_eq_false hidle hcount

/-- The end of the data cycles, when what is waited for is pending: all pending threads are released. -/
theorem endOfDataCycles_releases {kind : ParentKind} {rootId : Nat} {firstChild : Nodes}
    (hroot : root = .parent kind rootId firstChild .none) (hparents : root.parentIds.Nodup)
    (hstep : Step algorithm root m .endOfDataCycles m') (hconsistent : m.Consistent)
    (hnodes : m.AwaitsNodes root) (hm' : m'.AwaitsWork) :
    (∀ thread, m.awaited thread = ∅) ∧ m'.pendingThreads = ∅ ∧
      ∀ thread ∈ m.pendingThreads, (m'.appData thread).canProceed = true := by
  cases hstep with
  | @endOfDataCycles configured hconfigure hidle =>
    have hreleased := (hconsistent.withModel configured).releaseServedThreads.2
    have hdone := configure_idle hroot hparents hconfigure hidle
    have hnobody : ∀ thread, m.awaited thread = ∅ := by
      intro thread
      refine Finset.eq_empty_of_forall_notMem fun id hid => hdone id (hnodes thread id hid) ?_
      refine hm' thread id ?_
      rw [hreleased]
      exact hid
    refine ⟨hnobody, ?_, fun thread hthread => ?_⟩
    · refine Finset.eq_empty_of_forall_notMem fun thread hthread => ?_
      have hpending : thread ∈ m.pendingThreads := (Finset.mem_filter.mp hthread).1
      exact (releaseServedThreads_releases hpending (hnobody thread)).2 hthread
    · exact (releaseServedThreads_releases (m := { m with model := configured }) hthread
        (hnobody thread)).1

end SystemModelManager

open SystemModelManager

/-- In a run from a state in which nobody waits, and whose steps take nothing back, every register that a thread waits for has something to read or to write. A further step keeps it so exactly if it takes nothing back either; and when such a step ends the data cycles, nobody waits for a register of the tree, and all pending threads are released. -/
theorem awaited_hasWork {Thread : Type} [DecidableEq Thread]
    {algorithm : Option ConfigurationAlgorithm} {root : Nodes} {m₀ m : SystemModelManager Thread}
    {events : List (Event Thread)} (hidle : m₀.Idle)
    (hrun : Run (AllowedStep algorithm root) m₀ events m) :
    m.AwaitsWork ∧
      (∀ event m', Step algorithm root m event m' →
        (m'.AwaitsWork ↔ m.Allows algorithm root event)) ∧
      ∀ kind rootId firstChild m', root = .parent kind rootId firstChild .none →
        root.parentIds.Nodup → (∀ event ∈ events, event.Names root) →
        AllowedStep algorithm root m .endOfDataCycles m' →
        (∀ thread, (m.appData thread).pendingRegistersIds = ∅) ∧ m'.pendingThreads = ∅ ∧
          ∀ thread ∈ m.pendingThreads, (m'.appData thread).canProceed = true := by
  have hstart : m₀.AwaitsWork ∧ m₀.AwaitsNodes root := by
    refine ⟨fun thread id hid => ?_, fun thread id hid => ?_⟩
    · rw [hidle.awaited] at hid
      exact absurd hid (Finset.notMem_empty id)
    · rw [hidle.awaited] at hid
      exact absurd hid (Finset.notMem_empty id)
  obtain ⟨hconsistent, hwork⟩ := hrun.invariant (I := fun m => m.Consistent ∧ m.AwaitsWork)
    (C := fun _ => True) (fun s event s' hs _ hstep => ⟨hstep.2.consistent hs.1,
      (hstep.2.awaitsWork_iff hs.1 hs.2).mpr hstep.1⟩) ⟨hidle.consistent, hstart.1⟩
    fun _ _ => trivial
  refine ⟨hwork, fun event m' hstep => hstep.awaitsWork_iff hconsistent hwork, ?_⟩
  intro kind rootId firstChild m' hroot hparents hnames hend
  obtain ⟨-, hnodes⟩ := hrun.invariant (I := fun m => m.Consistent ∧ m.AwaitsNodes root)
    (C := Event.Names root) (fun s event s' hs hnames hstep => ⟨hstep.2.consistent hs.1,
      hstep.2.awaitsNodes hs.1 hnames hs.2⟩) ⟨hidle.consistent, hstart.2⟩ hnames
  have hm' := (hend.2.awaitsWork_iff hconsistent hwork).mpr hend.1
  exact endOfDataCycles_releases hroot hparents hend.2 hconsistent hnodes hm'

/-! ### Two threads that wait for one register -/

theorem single_writesOn : singleManager.WritesOn 1 (writesOf [[true]]) := by
  intro written hwrite id hsame hread hnot
  obtain rfl := Except.ok.inj hwrite
  refine ⟨fun client => Finset.notMem_empty id, fun _ hid => ?_⟩
  obtain rfl : id = 0 := List.mem_singleton.mp hid
  exact absurd hsame (by decide)

def readOfRegister : QueuedRequests := ⟨[], [], [⟨.register 0, [false], []⟩]⟩

/-- A second thread reads the register that the first one has written; the data cycle scans it for both. -/
theorem shared_scan :
    ∃ m configured visitor updated after,
      ((singleAwaited 1).reportPending 1).processQueuedRequests 2 readOfRegister = .ok m ∧
      m.managerThreadId = 0 ∧ configure none singleRoot m.model = .ok configured ∧
      singleRoot.isPending configured = true ∧ singleChannel.isPending configured = true ∧
      ToSutVisitor.visit configured false none singleChannel .start = .ok visitor ∧
      visitor.toSutVector ≠ [] ∧ visitor.activeRegisters = [0] ∧
      FromSutUpdater.updateRegisters visitor.activeRegisters [false] configured = .ok updated ∧
      configure none singleRoot updated = .ok after ∧ singleRoot.isPending after = false :=
  ⟨_, _, _, _, _, rfl, rfl, rfl, rfl, rfl, rfl, List.cons_ne_nil _ _, rfl, rfl, rfl, rfl⟩

/-- In a run over the tree of the register nothing else is waited for. -/
theorem single_awaits {events : List (Event Nat)} {m : SystemModelManager Nat}
    (hrun : Run (AllowedStep none singleRoot) singleManager events m)
    (hnames : ∀ event ∈ events, event.Names singleRoot) :
    m.Consistent ∧ ∀ thread, ∀ id ∈ m.awaited thread, id = 0 := by
  obtain ⟨hconsistent, hnodes⟩ := hrun.invariant
    (I := fun m => m.Consistent ∧ m.AwaitsNodes singleRoot) (C := Event.Names singleRoot)
    (fun s event s' hs hnames hstep => ⟨hstep.2.consistent hs.1,
      hstep.2.awaitsNodes hs.1 hnames hs.2⟩)
    ⟨singleManager_idle.consistent, fun _ id hid => absurd hid (Finset.notMem_empty id)⟩ hnames
  exact ⟨hconsistent, fun thread id hid => List.mem_singleton.mp (hnodes thread id hid)⟩

/-- A thread writes the register, and a second one reads it. -/
def sharedEvents : List (Event Nat) :=
  [.processQueuedRequests 1 (writesOf [[true]]), .reportPending 1,
    .processQueuedRequests 2 readOfRegister, .reportPending 2]

theorem sharedEvents_names : ∀ event ∈ sharedEvents, event.Names singleRoot := by
  intro event hmem
  simp only [sharedEvents, List.mem_cons, List.not_mem_nil, or_false] at hmem
  rcases hmem with rfl | rfl | rfl | rfl
  · intro request hrequest
    obtain rfl := List.mem_singleton.mp hrequest
    exact List.Subset.refl _
  · trivial
  · intro request hrequest
    obtain rfl := List.mem_singleton.mp hrequest
    exact List.Subset.refl _
  · trivial

theorem shared_run {m : SystemModelManager Nat}
    (hread : ((singleAwaited 1).reportPending 1).processQueuedRequests 2 readOfRegister = .ok m)
    (hmanager : m.managerThreadId = 0) :
    Run (AllowedStep none singleRoot) singleManager sharedEvents (m.reportPending 2) := by
  have hwritten : Run (AllowedStep none singleRoot) singleManager
      [.processQueuedRequests 1 (writesOf [[true]]), .reportPending 1]
      ((singleAwaited 1).reportPending 1) :=
    .cons ⟨single_writesOn, .processQueuedRequests single_awaited⟩
      (.cons ⟨trivial, .reportPending (by decide)⟩ (.nil _))
  have honly := (single_awaits hwritten fun event hmem =>
    sharedEvents_names event (List.mem_append_left [_, _] hmem)).2
  have hreadsOn : ((singleAwaited 1).reportPending 1).WritesOn 2 readOfRegister := by
    intro written _ id _ _ hnot
    refine ⟨fun client hid => hnot ?_, fun _ hid => absurd hid List.not_mem_nil⟩
    rw [honly client id hid]
    exact List.mem_singleton_self 0
  have hthread : 2 ≠ m.managerThreadId := by
    rw [hmanager]
    decide
  have hread : Run (AllowedStep none singleRoot) ((singleAwaited 1).reportPending 1)
      [.processQueuedRequests 2 readOfRegister, .reportPending 2] (m.reportPending 2) :=
    .cons ⟨hreadsOn, .processQueuedRequests hread⟩
      (.cons ⟨trivial, .reportPending hthread⟩ (.nil _))
  exact hwritten.append hread

/-- After the data cycle nobody waits for the register, and a thread that then reports itself as pending is released at the end. -/
theorem awaited_hasWork_shared :
    ∃ m m' : SystemModelManager Nat, ∃ services,
      Run (AllowedStep none singleRoot) singleManager
        (sharedEvents ++ [.dataCycle services, .reportPending 3]) m ∧
      AllowedStep none singleRoot m .endOfDataCycles m' ∧ m.AwaitsWork ∧
      (∀ thread, (m.appData thread).pendingRegistersIds = ∅) ∧ m'.pendingThreads = ∅ ∧
      (m'.appData 3).canProceed = true := by
  obtain ⟨m, configured, visitor, updated, after, hread, hmanager, hconfigure, hroot, hchannel,
    hvisit, hsome, hactive, hupdate, hafter, hidle⟩ := shared_scan
  have hasked := shared_run hread hmanager
  obtain ⟨hconsistent, honly⟩ := single_awaits hasked sharedEvents_names
  let services : List Service := [⟨configured, visitor, updated⟩]
  let m₁ : SystemModelManager Nat := { m.reportPending 2 with model := configured }
  let m₂ := (({ m₁ with model := updated }).reportServedRegisters
    visitor.activeRegisters).releaseServedThreads
  have hserves : ServesChannels singleRoot.channels m₁ services m₂ :=
    .scanned hchannel hvisit hsome hupdate (.done m₂)
  have hmodel : m₂.model = updated :=
    reportServedRegisters_model visitor.activeRegisters { m₁ with model := updated }
  have hserved : served services = [0] := by
    change visitor.activeRegisters ++ [] = [0]
    rw [hactive]
    rfl
  have hserve := (hserves.serves (hconsistent.withModel configured)).1
  have hnone (thread : Nat) : m₂.awaited thread = ∅ := by
    refine Finset.eq_empty_of_forall_notMem fun id hid => ?_
    obtain ⟨hbefore, hnot⟩ := (hserve.awaited thread id).mp hid
    rw [hserved, honly thread id hbefore] at hnot
    exact hnot (List.mem_singleton_self 0)
  have hconfigures : (m.reportPending 2).ConfiguresOn none singleRoot services := by
    intro _ _ client id hid _ _
    rw [hserved, honly client id hid]
    exact List.mem_singleton_self 0
  have hthread : 3 ≠ m₂.managerThreadId := by
    rw [hserve.managerThreadId]
    change 3 ≠ m.managerThreadId
    rw [hmanager]
    decide
  have hcycle : Run (AllowedStep none singleRoot) (m.reportPending 2)
      [.dataCycle services, .reportPending 3] (m₂.reportPending 3) :=
    .cons ⟨hconfigures, .dataCycle hconfigure hroot hserves⟩
      (.cons ⟨trivial, .reportPending hthread⟩ (.nil _))
  have hrun := hasked.append hcycle
  have hend : AllowedStep none singleRoot (m₂.reportPending 3) .endOfDataCycles
      ({ m₂.reportPending 3 with model := after }).releaseServedThreads := by
    refine ⟨fun _ _ client id hid => ?_, .endOfDataCycles ?_ hidle⟩
    · rw [reportPending_awaited, hnone] at hid
      exact absurd hid (Finset.notMem_empty id)
    · change configure none singleRoot m₂.model = .ok after
      rw [hmodel, hafter]
  have hnames : ∀ event ∈ sharedEvents ++ [.dataCycle services, .reportPending 3],
      event.Names singleRoot := by
    intro event hmem
    rcases List.mem_append.mp hmem with hasked | hcycle
    · exact sharedEvents_names event hasked
    · rcases List.mem_pair.mp hcycle with rfl | rfl <;> trivial
  obtain ⟨hwork, -, hreleases⟩ := awaited_hasWork singleManager_idle hrun
  obtain ⟨hnobody, hpending, hproceed⟩ :=
    hreleases .accessInterface 0 singleChannel _ rfl (by decide) hnames hend
  exact ⟨_, _, services, hrun, hend, hwork, hnobody, hpending,
    hproceed 3 (Finset.mem_insert_self 3 _)⟩

/-- Two writes of one `iApply`, the second with the value that the register already has. -/
theorem single_takenBack :
    ∃ m', singleManager.processQueuedRequests 1 (writesOf [[true], [false]]) = .ok m' ∧
      m'.awaited 1 = {0} ∧ ¬(m'.model.registers 0).HasWork :=
  ⟨_, rfl, rfl, by decide⟩

theorem awaited_not_hasWork :
    ¬∀ (Thread : Type) [DecidableEq Thread] (algorithm : Option ConfigurationAlgorithm)
      (root : Nodes) (m₀ m : SystemModelManager Thread) (events : List (Event Thread)), m₀.Idle →
      Run (Step algorithm root) m₀ events m → m.AwaitsWork := by
  intro hwork
  obtain ⟨m', hprocess, hawaited, hdone⟩ := single_takenBack
  refine hdone (hwork Nat none singleRoot singleManager m' _ singleManager_idle
    (.cons (.processQueuedRequests hprocess) (.nil _)) 1 0 ?_)
  rw [hawaited]
  exact Finset.mem_singleton_self 0

end Mast
