import Mast.BinaryVector.Slice
import Mast.Lib.Commands
import Mast.Scan.ScanPath
import Mast.Scan.WholeRegister

/-!
# Secured segments

A `DefaultS2IBPathSelector` opens its segment once the `SSAK_PathSelector` that it shares with the other secured segments says that it is open. That selector authenticates in several steps, one for each call: it sends a configuration that names a segment, answers the challenge, and reads whether the answer was accepted. It has one state for all segments.
-/

namespace Mast

namespace Ssak

open Commands

/-- `SSAK_SelectorState`; `opened` stands for `OPEN`. -/
inductive SelectorState
  | closed
  | configSent
  | authenticationCheck
  | opened
  deriving DecidableEq

/-- What happens to the access: a configuration is sent for a cardinality, a response is sent to the challenge, success is read back, the access is closed. -/
inductive Event
  | configSent (cardinality : Nat)
  | responseSent
  | success
  | accessClosed
  deriving DecidableEq

/-- The registers, with what `SSAK_PathSelector` and its driver keep from one call to the next, and what has happened to the access so far. -/
structure State where
  model : SystemModel
  selectorState : SelectorState
  attempts : Nat
  selected : List BitPacking.Byte
  events : List Event

/-- A call that throws keeps what it did before. -/
abbrev Command := EStateM Fault State

/-- What a command tells of the access; nothing in the code reads it. -/
def report (event : Event) : Command Unit :=
  modify fun s => { s with events := s.events ++ [event] }

def become (selectorState : SelectorState) : Command Unit :=
  modify fun s => { s with selectorState := selectorState }

def orThrow {α : Type} : Except Fault α → Command α
  | .ok value => pure value
  | .error fault => throw fault

def readRegisters (read : SystemModel → Except Fault Bits) : Command Bits := do
  orThrow (read (← get).model)

def updateRegisters (update : SystemModel → Except Fault SystemModel) : Command Unit := do
  let s ← get
  set { s with model := ← orThrow (update s.model) }

/-- `VirtualRegister::LastFromSut`. -/
def lastFromSut (v : VirtualRegister) (s : SystemModel) : Except Fault Bits :=
  v.getView s Register.lastFromSut

/-- `VirtualRegister::SetPendingForRead`. -/
def setPendingForRead (pendingForRead : Bool) : VirtualRegister → SystemModel → SystemModel
  | [], s => s
  | slice :: rest, s => setPendingForRead pendingForRead rest
      (s.setRegister slice.reg ((s.registers slice.reg).setPendingForRead pendingForRead))

/-! ### The authentication -/

/-- The fields of `SSAK_PathSelector` that do not change. The driver's response to a challenge is an address from which bytes are read. -/
structure Selector where
  muxRegisters : VirtualRegister
  interfaceSize : Nat
  key : List BitPacking.Byte
  computeResponse : List BitPacking.Byte → List BitPacking.Byte → Nat → BitPacking.Byte

namespace Selector

variable (ssak : Selector)

/-- The configuration for a segment; `operator[]` does not check its index. -/
def config (cardinality : Nat) : Except Fault Bits :=
  if 0 < cardinality ∧ cardinality ≤ ssak.interfaceSize then
    .ok ((List.replicate ssak.interfaceSize false).set (ssak.interfaceSize - cardinality) true)
  else .error .undefinedBehaviour

/-- `m_SSAKAuthenticationSuccess`. -/
def authenticationSuccess : Bits :=
  (List.replicate ssak.interfaceSize false).set (ssak.interfaceSize - 1) true

/-- `m_SSAKAuthenticationFailure`. -/
def authenticationFailure : Bits :=
  (List.replicate ssak.interfaceSize false).set (ssak.interfaceSize - 2) true

def response (challenge : Bits) : Except Fault Bits :=
  let response := ssak.computeResponse ssak.key (BitPacking.pack challenge)
  (BinaryVector.createFromRightAlignedBuffer ((List.range (ssak.interfaceSize / 8)).map response)
    ssak.interfaceSize .notFixed).map BinaryVector.bits

/-- `SSAK_CONNECTION_WATCHDOG`. -/
def connectionWatchdog : Nat := 5

/-- The case `CLOSED` of `DoAuthentication`. -/
def sendConfig (cardinality : Nat) (config : Bits) : Command Unit := do
  updateRegisters (ssak.muxRegisters.setToSut config)
  become .configSent
  report (.configSent cardinality)

/-- The case `CONFIG_SENT`, once the configuration has been received. -/
def sendResponse : Command Unit := do
  let challenge ← readRegisters (lastFromSut ssak.muxRegisters)
  let response ← orThrow (ssak.response challenge)
  updateRegisters (ssak.muxRegisters.setToSut response)
  become .authenticationCheck
  report .responseSent
  modify fun s => { s with
    model := setPendingForRead true ssak.muxRegisters s.model
    attempts := 0 }

/-- The case `AUTHENTICATION_CHECK`. The statement after the watchdog's test leaves the case whatever it tests. -/
def checkAuthentication : Command Unit := do
  let authenticationResult ← readRegisters (lastFromSut ssak.muxRegisters)
  if authenticationResult = ssak.authenticationSuccess then
    become .opened
    report .success
  else if authenticationResult = ssak.authenticationFailure then
    throw (.runtimeError "SSAK Selector : Authentication Failure ")
  else
    modify fun s => { s with attempts := (s.attempts + 1) % uint32Size }
    if (← get).attempts = connectionWatchdog then
      throw (.runtimeError "SSAK Selector : Authentication Timeout")

/-- The `switch` of `DoAuthentication`. -/
def authenticationStep (cardinality : Nat) (config : Bits) (pendingWrite : Bool) :
    SelectorState → Command Unit
  | .closed => ssak.sendConfig cardinality config
  | .configSent => if pendingWrite = false then ssak.sendResponse else pure ()
  | .authenticationCheck => ssak.checkAuthentication
  | .opened => pure ()

def doAuthentication (cardinality : Nat) : Command SelectorState := do
  let nextToSut ← readRegisters ssak.muxRegisters.nextToSut
  let lastToSut ← readRegisters ssak.muxRegisters.lastToSut
  let config ← orThrow (ssak.config cardinality)
  let selectorState := (← get).selectorState
  ssak.authenticationStep cardinality config (nextToSut != lastToSut) selectorState
  return (← get).selectorState

/-- `CloseSSAK`: the driver forgets what it has selected. -/
def closeSsak : Command Unit := do
  modify fun s => { s with selected := s.selected.map fun _ => 0 }
  report .accessClosed

end Selector

/-! ### The secured segments -/

/-- The fields of `DefaultS2IBPathSelector`, with the register it is associated with, which has one bit. -/
structure S2ib where
  cardinality : Nat
  associatedRegister : Nat
  deriving DecidableEq

namespace S2ib

variable (s2ib : S2ib)

def muxRegisters : VirtualRegister := .ofRegister s2ib.associatedRegister 1

/-- `m_SelectValue`. -/
def selectValue : Bits := [true]

/-- `m_DeSelectValue`. -/
def deSelectValue : Bits := [false]

def isSelected (s : SystemModel) : Except Fault Bool :=
  (s2ib.muxRegisters.nextToSut s).map (· == selectValue)

/-- The value written to the registers and the request to send it. -/
def request (value : Bits) : Command Unit := do
  updateRegisters (s2ib.muxRegisters.setToSut value)
  modify fun s => { s with model := s2ib.muxRegisters.setPending s.model }

def deselect : Command Unit := do
  let nextToSut ← readRegisters s2ib.muxRegisters.nextToSut
  if nextToSut ≠ deSelectValue then
    s2ib.request deSelectValue
    Selector.closeSsak

def select (ssak : Selector) : Command Unit := do
  if (← orThrow (s2ib.isSelected (← get).model)) = false then
    if (← ssak.doAuthentication s2ib.cardinality) = .opened then
      let nextToSut ← readRegisters s2ib.muxRegisters.nextToSut
      if nextToSut ≠ selectValue then
        s2ib.request selectValue

end S2ib

/-! ### Runs -/

/-- The secured segments that share an `SSAK_PathSelector`, with the registers as they are when the selectors are constructed. Segments have different cardinalities and registers of their own. -/
structure Network where
  ssak : Selector
  segments : Nat
  s2ib : Fin segments → S2ib
  model : SystemModel
  cardinality_injective : ∀ i j, (s2ib i).cardinality = (s2ib j).cardinality → i = j
  register_injective : ∀ i j, (s2ib i).associatedRegister = (s2ib j).associatedRegister → i = j
  not_ssak : ∀ i, (s2ib i).associatedRegister ∉ ssak.muxRegisters.identifiers
  oneBit : ∀ i, (model.registers (s2ib i).associatedRegister).HasWidth 1

/-- What can happen to the secured segments. A data cycle gives some registers what they receive. -/
inductive Step (segments : Nat)
  | select (i : Fin segments)
  | deselect (i : Fin segments)
  | dataCycle (received : Nat → Option Bits)

end Ssak

/-- A register after a data cycle, if it was shifted in that cycle. -/
def Register.afterCycle (r : Register) : Option Bits → Register
  | none => r
  | some received =>
    match r.setFromSut received with
    | .ok r => r.updateLastToSut.resetPending.setCheckExpected false
    | .error _ => r

namespace Ssak

def finalState {α : Type} (s : State) (command : Command α) : State :=
  match command.run s with
  | .ok _ s => s
  | .error _ s => s

namespace Network

variable (network : Network)

def after (s : State) : Step network.segments → State
  | .select i => finalState s ((network.s2ib i).select network.ssak)
  | .deselect i => finalState s (network.s2ib i).deselect
  | .dataCycle received =>
    { s with model := { s.model with
        registers := fun id => (s.model.registers id).afterCycle (received id) } }

def start : State := ⟨network.model, .closed, 0, [], []⟩

end Network

end Ssak

end Mast
