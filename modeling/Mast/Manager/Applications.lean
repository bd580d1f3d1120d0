import Mast.Scan.ExpectedFromSut
import Mast.Scan.Mirror

/-!
# Application threads and the data cycle loop

Threads hand their requests over in `iApply` and wait until the registers they asked for have been scanned. `ProcessQueuedRequests` changes the registers and notes who waits for what, `iApply` then puts its thread among the pending ones, and the manager's thread runs data cycles until the root is not pending any more. Each of these holds the mutex from beginning to end, so that they take place one after the other, in any order.
-/

namespace Mast

/-! ### Requests -/

/-- What a request names through `RegisterInterface`: a register or a virtual register. -/
inductive RequestedRegisters
  | register (id : Nat)
  | virtual (v : VirtualRegister)

namespace RequestedRegisters

def identifiers : RequestedRegisters → List Nat
  | register id => [id]
  | virtual v => v.identifiers

def setToSut (sequence : Bits) (s : SystemModel) : RequestedRegisters → Except Fault SystemModel
  | register id => ((s.registers id).setToSut sequence).map (s.setRegister id)
  | virtual v => v.setToSut sequence s

def setExpectedFromSut (sequence dontCareMask : Bits) (s : SystemModel) :
    RequestedRegisters → Except Fault SystemModel
  | register id =>
    ((s.registers id).setExpectedFromSut sequence dontCareMask).map (s.setRegister id)
  | virtual v => v.setExpectedFromSut sequence dontCareMask s

end RequestedRegisters

structure QueuedRequest where
  reg : RequestedRegisters
  value : Bits
  mask : Bits

structure QueuedRequests where
  queuedWrites : List QueuedRequest
  queuedRefreshes : List QueuedRequest
  queuedReads : List QueuedRequest

namespace SystemModelManager

/-- What the manager keeps for a thread, besides its queues. -/
structure ApplicationData where
  canProceed : Bool
  pendingRegistersIds : Finset Nat

end SystemModelManager

/-- `SystemModelManager_impl`. The sets of threads and of identifiers are ordered in the source, which does not matter here. -/
structure SystemModelManager (Thread : Type) where
  model : SystemModel
  managerThreadId : Thread
  appData : Thread → SystemModelManager.ApplicationData
  regIdToAppData : List (Nat × Thread)
  pendingThreads : Finset Thread

namespace SystemModelManager

variable {Thread : Type} [DecidableEq Thread]

/-! ### Who waits for what -/

/-- `RegisterPendingThread`, called by a thread. -/
def registerPendingThread (thread : Thread) (m : SystemModelManager Thread) (regId : Nat) :
    SystemModelManager Thread :=
  if thread = m.managerThreadId then m
  else
    let pendingIds := (m.appData thread).pendingRegistersIds
    if regId ∈ pendingIds then
      { m with appData := Function.update m.appData thread ⟨false, pendingIds⟩ }
    else
      { m with
        appData := Function.update m.appData thread ⟨false, insert regId pendingIds⟩
        regIdToAppData := m.regIdToAppData ++ [(regId, thread)] }

/-- What `ReportServedRegisters` does for one register. -/
def reportServedRegister (m : SystemModelManager Thread) (regId : Nat) :
    SystemModelManager Thread :=
  let range := m.regIdToAppData.filter (·.1 = regId)
  { m with
    appData := (range.map Prod.snd).foldl (fun appData thread =>
      Function.update appData thread
        { appData thread with
          pendingRegistersIds := (appData thread).pendingRegistersIds.erase regId }) m.appData
    regIdToAppData := m.regIdToAppData.filter (·.1 ≠ regId) }

def reportServedRegisters (activeRegisters : List Nat) (m : SystemModelManager Thread) :
    SystemModelManager Thread := activeRegisters.foldl reportServedRegister m

def isServed (m : SystemModelManager Thread) (thread : Thread) : Bool :=
  thread ∈ m.pendingThreads ∧ (m.appData thread).pendingRegistersIds = ∅

/-- `ReleaseServedThreads`: what it does for one pending thread does not depend on the others. -/
def releaseServedThreads (m : SystemModelManager Thread) : SystemModelManager Thread :=
  { m with
    appData thread :=
      if m.isServed thread then { m.appData thread with canProceed := true } else m.appData thread
    pendingThreads := m.pendingThreads.filter fun thread => m.isServed thread = false }

/-! ### Queued requests -/

/-- What is done for a register of a write that has been done. -/
def registerWritten (thread : Thread) (m : SystemModelManager Thread) (identifier : Nat) :
    Except Fault (SystemModelManager Thread) := do
  match ← m.model.registerWithId identifier with
  | none => .error .undefinedBehaviour
  | some reg =>
    if reg.nextToSut ≠ reg.lastToSut then return m.registerPendingThread thread identifier
    else return m

/-- What is done for a register of a refresh or, with the expected value checked, of a read. -/
def registerAwaited (checkExpected : Bool) (thread : Thread) (m : SystemModelManager Thread)
    (identifier : Nat) : Except Fault (SystemModelManager Thread) := do
  match ← m.model.registerWithId identifier with
  | none => .error .undefinedBehaviour
  | some reg =>
    let reg := if checkExpected then reg.setCheckExpected true else reg
    let m := { m with model := m.model.setRegister identifier (reg.setPendingForRead true) }
    return m.registerPendingThread thread identifier

def processWrite (thread : Thread) (m : SystemModelManager Thread) (request : QueuedRequest) :
    Except Fault (SystemModelManager Thread) := do
  let model ← request.reg.setToSut request.value m.model
  request.reg.identifiers.foldlM (registerWritten thread) { m with model }

def processRefresh (thread : Thread) (m : SystemModelManager Thread) (request : QueuedRequest) :
    Except Fault (SystemModelManager Thread) :=
  request.reg.identifiers.foldlM (registerAwaited false thread) m

def processRead (thread : Thread) (m : SystemModelManager Thread) (request : QueuedRequest) :
    Except Fault (SystemModelManager Thread) := do
  let model ← request.reg.setExpectedFromSut request.value request.mask m.model
  request.reg.identifiers.foldlM (registerAwaited true thread) { m with model }

/-- `ProcessQueuedRequests`, for the queues of a thread. -/
def processQueuedRequests (thread : Thread) (requests : QueuedRequests)
    (m : SystemModelManager Thread) : Except Fault (SystemModelManager Thread) := do
  let m ← requests.queuedWrites.foldlM (processWrite thread) m
  let m ← requests.queuedRefreshes.foldlM (processRefresh thread) m
  requests.queuedReads.foldlM (processRead thread) m

/-- The thread reports itself as pending, in `iApply`. -/
def reportPending (thread : Thread) (m : SystemModelManager Thread) : SystemModelManager Thread :=
  { m with
    appData :=
      Function.update m.appData thread { m.appData thread with canProceed := false }
    pendingThreads := insert thread m.pendingThreads }

end SystemModelManager

/-! ### Data cycles -/

namespace Nodes

def eachSibling : Nodes → List Nodes
  | none => []
  | register id nextSibling => register id none :: nextSibling.eachSibling
  | parent kind id firstChild nextSibling =>
    parent kind id firstChild none :: nextSibling.eachSibling

/-- The channels, in the order in which `DataCycleVisitor` comes to their access interfaces: first to those below. -/
def channels : Nodes → List Nodes
  | none => []
  | register _ nextSibling => nextSibling.channels
  | parent .accessInterface _ firstChild nextSibling =>
    firstChild.channels ++ firstChild.eachSibling ++ nextSibling.channels
  | parent _ _ firstChild nextSibling => firstChild.channels ++ nextSibling.channels

end Nodes

namespace SystemModelManager

variable {Thread : Type} [DecidableEq Thread]

/-- A channel that has been scanned: the model and the visitor the vector was built from, and the model that has been updated with the vector that came back. -/
structure Service where
  configured : SystemModel
  visitor : ToSutVisitor
  updated : SystemModel

/-- `DoHierarchicalDataCycle` over channels. Nothing is done for one that is not pending, or that has no bits; of the vector that comes back nothing is known. -/
inductive ServesChannels :
    List Nodes → SystemModelManager Thread → List Service → SystemModelManager Thread → Prop
  | done (m : SystemModelManager Thread) : ServesChannels [] m [] m
  | idle {channel : Nodes} {channels : List Nodes} {m m' : SystemModelManager Thread}
      {services : List Service} (hidle : channel.isPending m.model = false)
      (hrest : ServesChannels channels m services m') :
      ServesChannels (channel :: channels) m services m'
  | empty {channel : Nodes} {channels : List Nodes} {m m' : SystemModelManager Thread}
      {services : List Service} {visitor : ToSutVisitor}
      (hpending : channel.isPending m.model = true)
      (hvisit : ToSutVisitor.visit m.model false none channel .start = .ok visitor)
      (hempty : visitor.toSutVector = []) (hrest : ServesChannels channels m services m') :
      ServesChannels (channel :: channels) m services m'
  | scanned {channel : Nodes} {channels : List Nodes} {m m' : SystemModelManager Thread}
      {services : List Service} {visitor : ToSutVisitor} {fromSutVector : Bits}
      {updated : SystemModel} (hpending : channel.isPending m.model = true)
      (hvisit : ToSutVisitor.visit m.model false none channel .start = .ok visitor)
      (hsome : visitor.toSutVector ≠ [])
      (hupdate : FromSutUpdater.updateRegisters visitor.activeRegisters fromSutVector m.model =
        .ok updated)
      (hrest : ServesChannels channels
        (({ m with model := updated }).reportServedRegisters
          visitor.activeRegisters).releaseServedThreads services m') :
      ServesChannels (channel :: channels) m (⟨m.model, visitor, updated⟩ :: services) m'

/-- The beginning of a turn of the data cycle loop. -/
def configure (algorithm : Option ConfigurationAlgorithm) (root : Nodes)
    (s : SystemModel) : Except Fault SystemModel := do
  return PropagatePendingVisitor.propagate root (← ConfigureVisitor.visit algorithm none root s)

/-- What happens while the mutex is held. -/
inductive Event (Thread : Type)
  | processQueuedRequests (thread : Thread) (requests : QueuedRequests)
  | reportPending (thread : Thread)
  | dataCycle (services : List Service)
  | endOfDataCycles

/-- The steps, in any order. The manager's thread runs the data cycles itself and does not wait for them; the last turn of the loop, which finds nothing pending, releases the threads before it gives the mutex back. -/
inductive Step (algorithm : Option ConfigurationAlgorithm) (root : Nodes) :
    SystemModelManager Thread → Event Thread → SystemModelManager Thread → Prop
  | processQueuedRequests {m m' : SystemModelManager Thread} {thread : Thread}
      {requests : QueuedRequests} (hprocess : m.processQueuedRequests thread requests = .ok m') :
      Step algorithm root m (.processQueuedRequests thread requests) m'
  | reportPending {m : SystemModelManager Thread} {thread : Thread}
      (hthread : thread ≠ m.managerThreadId) :
      Step algorithm root m (.reportPending thread) (m.reportPending thread)
  | dataCycle {m m' : SystemModelManager Thread} {configured : SystemModel}
      {services : List Service} (hconfigure : configure algorithm root m.model = .ok configured)
      (hpending : root.isPending configured = true)
      (hserves : ServesChannels root.channels { m with model := configured } services m') :
      Step algorithm root m (.dataCycle services) m'
  | endOfDataCycles {m : SystemModelManager Thread} {configured : SystemModel}
      (hconfigure : configure algorithm root m.model = .ok configured)
      (hidle : root.isPending configured = false) :
      Step algorithm root m .endOfDataCycles
        ({ m with model := configured }).releaseServedThreads

end SystemModelManager

end Mast
