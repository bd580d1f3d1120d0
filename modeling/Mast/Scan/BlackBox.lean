import Mast.Scan.Configure

/-!
# Black boxes

A black box has no bits of its own in the model: `iScan` gives it as many as the vector has that is to be scanned. The size is changed at once, through the bypass sequence, and without the mutex of the data cycles; the vector itself waits in the queue of its thread, and an expected value with it, until `iApply` hands them to the register. A data cycle first collects the vectors, and updates the registers once the protocol has answered. It has the mutex in between, so that no thread gets through `iApply` meanwhile.
-/

namespace Mast

namespace Register

variable (r : Register)

def setAsBlackBox : Register :=
  { r with
    isBlackBox := true
    nextToSut_length := Bool.noConfusion
    lastToSut_length := Bool.noConfusion
    lastFromSut_length := Bool.noConfusion
    expectedFromSut_length := Bool.noConfusion
    bypass_length := Bool.noConfusion }

/-- `SystemModel::CreateBlackBox`. -/
def createBlackBox (name : String) (bypassSequence : Bits) (holdValue : Bool)
    (bitsOrdering : BitsOrdering) : Register :=
  (create name bypassSequence holdValue bitsOrdering).setAsBlackBox

def resetSize (newSize : Nat) : Except Fault Register := r.setBypass (List.replicate newSize false)

/-- The black box has as many bits as the new value. -/
def matchSize (newValueSize : Nat) : Except Fault Register :=
  if newValueSize ≠ r.bitsCount then r.resetSize newValueSize else .ok r

def setExpected (value : Bits) : Except Fault Register := do
  let r ← r.setExpectedFromSut value []
  return (r.setCheckExpected true).setPendingForRead true

end Register

/-- The requests of a thread for the register. -/
structure ApplicationData where
  queuedWrites : List Bits
  queuedReads : List Bits

/-- A data cycle that waits for the protocol: the visitor, and the black box as it was visited. -/
structure Cycle where
  visitor : ToSutVisitor
  visited : Register

structure Manager (Thread : Type) where
  model : SystemModel
  appData : Thread → ApplicationData
  cycle : Option Cycle

section

variable {Thread : Type} [DecidableEq Thread] (box : Nat)

namespace Manager

/-- `iScan_impl`, with an expected value or without. -/
def iScan (thread : Thread) (value : Bits) (expectedValue : Option Bits) (m : Manager Thread) :
    Except Fault (Manager Thread) := do
  let reg := m.model.registers box
  if reg.isBlackBox = false then
    .error (.invalidArgument "iScan can be applied only to Black Boxes")
  else
    let reg ← reg.matchSize value.length
    let appData := m.appData thread
    return { m with
      model := m.model.setRegister box reg
      appData := Function.update m.appData thread
        { queuedWrites := appData.queuedWrites ++ [value]
          queuedReads := appData.queuedReads ++ expectedValue.toList } }

/-- `ProcessQueuedRequests`: the writes come before the reads. -/
def processQueuedRequests (thread : Thread) (m : Manager Thread) :
    Except Fault (Manager Thread) := do
  let appData := m.appData thread
  let reg ← appData.queuedWrites.foldlM Register.setToSut (m.model.registers box)
  let reg ← appData.queuedReads.foldlM Register.setExpected reg
  return { m with
    model := m.model.setRegister box reg
    appData := Function.update m.appData thread ⟨[], []⟩ }

def configured (m : Manager Thread) : SystemModel :=
  m.model.setRegister box (ConfigureVisitor.visitRegister (m.model.registers box))

end Manager

/-! ### Runs -/

/-- What a thread, the data cycles or the rest of the model do. -/
inductive Manager.Event (Thread : Type)
  | iScan (thread : Thread) (value : Bits) (expectedValue : Option Bits)
  | iApply (thread : Thread)
  | elsewhere
  | build (isActive : Bool)
  | update

/-- The vectors that are scanned have the length of the bypass sequence. -/
structure Register.Uniform (r : Register) : Prop where
  nextToSut : r.nextToSut.length = r.bitsCount
  comparable : r.Comparable

/-- The other registers change, but for their number of bits. -/
structure Manager.Elsewhere (s s' : SystemModel) : Prop where
  identifierMapping : s'.identifierMapping = s.identifierMapping
  registers : s'.registers box = s.registers box
  bitsCount (id : Nat) : (s'.registers id).bitsCount = (s.registers id).bitsCount
  uniform (id : Nat) : id ≠ box → (s.registers id).Uniform → (s'.registers id).Uniform

/-- The steps, in any order. The label of a data cycle tells whether the black box is on the active path of its channel. -/
inductive Manager.Step (channel : Nodes) :
    Manager Thread → Manager.Event Thread → Manager Thread → Prop
  | iScan {m m' : Manager Thread} {thread : Thread} {value : Bits} {expectedValue : Option Bits}
      (hvalue : value ≠ []) (hexpected : expectedValue ≠ some [])
      (hscan : m.iScan box thread value expectedValue = .ok m') :
      Manager.Step channel m (.iScan thread value expectedValue) m'
  | iApply {m m' : Manager Thread} {thread : Thread} (hfree : m.cycle = none)
      (happly : m.processQueuedRequests box thread = .ok m') :
      Manager.Step channel m (.iApply thread) m'
  | elsewhere {m : Manager Thread} {model : SystemModel}
      (hchange : Manager.Elsewhere box m.model model) :
      Manager.Step channel m .elsewhere { m with model }
  | build {m : Manager Thread} {visitor : ToSutVisitor} (hfree : m.cycle = none)
      (hvisit : ToSutVisitor.visit (m.configured box) false none channel .start = .ok visitor) :
      Manager.Step channel m (.build (visitor.activeRegisters.contains box))
        { m with
          model := m.configured box
          cycle := some ⟨visitor, (m.configured box).registers box⟩ }
  | update {m : Manager Thread} {cycle : Cycle} {fromSutVector : Bits} {model : SystemModel}
      (hcycle : m.cycle = some cycle)
      (hlength : fromSutVector.length = cycle.visitor.toSutVector.length)
      (hvector : fromSutVector.length < uint32Size)
      (hupdate : FromSutUpdater.updateRegisters cycle.visitor.activeRegisters fromSutVector
        m.model = .ok model) :
      Manager.Step channel m .update { m with model, cycle := none }

end

end Mast
