import Mast.Generator.Network
import Mast.Lib.Fuel
import Mathlib.Data.Finset.Insert
import Mathlib.Logic.Function.Basic

/-!
# The walk of the generator

`AST_SystemModelGenerator` creates the tree of a network by following the wire of each ScanOutPort of the top module backwards. A register is created where the walk passes a `ScanRegister`, and a chain where it enters an instance for the first time. What is below the top module is prepended to the chain of an instance at once; the nodes of the top module itself are stacked and appended when the walk has ended.
-/

namespace Mast

namespace Generator

open Fuel

variable {n : Nat}

/-- A node of the tree: the chain of the top module, the chain of an instance, by the module it is in and its name, or the register of a `ScanRegister`. -/
inductive Node (n : Nat)
  | top
  | chain (module : Fin n) (name : String)
  | register (module : Fin n) (name : String) (bypassSequence : Bits)
  deriving DecidableEq, Repr

def Node.isRegister : Node n → Bool
  | .register _ _ _ => true
  | _ => false

/-- `InstanceContext`; the top module has no instance. -/
structure InstanceContext (n : Nat) where
  inst : Option (Instance n)
  parentModule : Fin n
  parentNode : Node n

/-- The stacks of the generator, the nodes it has created, and the marks it leaves on the AST; the elements are given by their module and their name. Without a `ScanMux` there is no Linker context. -/
structure State (n : Nat) where
  instancesContext : List (InstanceContext n)
  createdNodes : List (Node n)
  children : Node n → List (Node n)
  associatedRegisters : Finset (Fin n × String)
  associatedChains : Finset (Fin n × String)
  markedScanOutPorts : Finset (Fin n × String)

namespace State

variable (s : State n)

def prependChild (parent child : Node n) : State n :=
  { s with children := Function.update s.children parent (child :: s.children parent) }

def appendChild (parent child : Node n) : State n :=
  { s with children := Function.update s.children parent (s.children parent ++ [child]) }

/-- `AppendCreatedNodesToParent`, with no nodes to leave. -/
def appendCreatedNodesToParent (parent : Node n) : State n :=
  { s.createdNodes.foldl (fun s child => s.appendChild parent child) s with createdNodes := [] }

def assignNewNode (node : Node n) : Except Fault (State n) :=
  match s.instancesContext with
  | [] => .error .undefinedBehaviour
  | [_] => .ok { s with createdNodes := node :: s.createdNodes }
  | context :: _ => .ok (s.prependChild context.parentNode node)

end State

/-- Where the walk goes on, and nowhere when the path has ended: `ProcessingContext_t`. -/
abbrev ProcessingContext (n : Nat) := Option (Fin n × List Signal)

/-- What the message about a reset value shows of it. -/
def shownResetValue (resetValue : AST.ResolvedNumber) : Except Fault BinaryVector.Text :=
  if resetValue.number.isFullySized then
    (resetValue.asBinaryVector 0).map fun v => v.dataAsICLMixString 8
  else resetValue.asText

def resetTooLarge (shown : BinaryVector.Text) (name : String) (bitsCount : Nat) : Fault :=
  .runtimeError ("Reset value " ++ String.ofList shown ++ " is too large for register \"" ++ name ++
    "\" with " ++ toString bitsCount ++ " bit(s)")

/-- The bypass sequence that `Process_ScanRegister` gives the register. -/
def ScanRegister.bypassValue (scanRegister : ScanRegister) : Except Fault Bits := do
  let bitsCount := scanRegister.identifier.bitsCount.toNat
  let bypassValue ← Bits.filled bitsCount 0x00
  match scanRegister.resetValue with
  | none => .ok bypassValue
  | some resetValue =>
    match resetValue.asBinaryVector bitsCount with
    | .ok bypassValue => .ok bypassValue.bits
    | .error (.invalidArgument _) => do
      let shown ← shownResetValue resetValue
      throw (resetTooLarge shown scanRegister.baseName bitsCount)
    | .error fault => .error fault

def processScanRegister (module : Fin n) (scanRegister : ScanRegister) (s : State n) :
    Except Fault (ProcessingContext n × State n) := do
  let bypassValue ← scanRegister.bypassValue
  let s ← State.assignNewNode
    { s with associatedRegisters := insert (module, scanRegister.baseName) s.associatedRegisters }
    (.register module scanRegister.baseName bypassValue)
  return (some (module, scanRegister.scanInSource), s)

def isSourcedByModuleInput (module : Module n) (signals : List Signal) :
    Except Fault (Option Port) :=
  match signals with
  | [.number _] => .error .undefinedBehaviour
  | [.port portScope portName _] =>
    if portScope ≠ [] then .ok none
    else .ok (module.scanInPorts.find? (·.name = portName.baseName))
  | _ => .error (.runtimeError ("Expecting source to be driven by exactly one signal, got " ++
      toString signals.length))

/-- `Process_Instance_Exit`. An input of the instance that is not connected ends the path. -/
def processInstanceExit (net : Network n) (scanInPort : Port) (s : State n) :
    Except Fault (ProcessingContext n × State n) :=
  match s.instancesContext with
  | [] => .error (.runtimeError "Houps not balanced push/pop on instance context")
  | context :: rest =>
    match context.inst with
    | none => .error .undefinedBehaviour
    | some inst =>
      match inst.findInputPort scanInPort.identifier with
      | none =>
        if ((net.modules inst.uniquifiedModule).findScanInPort scanInPort.identifier).isNone then
          .error (.invalidArgument ("Cannot find instance module Port: \"" ++
            scanInPort.identifier.baseName ++ "\""))
        else if rest = [] then
          .error (.runtimeError
            "Must remain at least one (implicit) instance context for top module")
        else .ok (none, { s with instancesContext := rest })
      | some instanceInputPort =>
        match instanceInputPort.source, rest with
        | none, _ => .error .undefinedBehaviour
        | some _, [] => .error (.runtimeError
            "Must have at least an (implicit) instance context for top module")
        | some sourceSignals, outer :: _ =>
          .ok (some (outer.parentModule, sourceSignals), { s with instancesContext := rest })

namespace Network

variable (net : Network n)

/-- The end of `Process_Instance_Entry`: the port is marked and its source followed. -/
def enterInstance (inst : Instance n) (scanOutPort : Option Port) (parentNode : Node n)
    (s : State n) : Except Fault (ProcessingContext n × State n) :=
  match scanOutPort with
  | none => .error .undefinedBehaviour
  | some scanOutPort =>
    match scanOutPort.source with
    | none => .error .undefinedBehaviour
    | some sourceSignals =>
      .ok (some (inst.uniquifiedModule, sourceSignals),
        { s with
          markedScanOutPorts :=
            insert (inst.uniquifiedModule, scanOutPort.identifier.baseName) s.markedScanOutPorts
          instancesContext :=
            ⟨some inst, inst.uniquifiedModule, parentNode⟩ :: s.instancesContext })

/-- `IsScanOutPortMarked`; a port that was not found has no mark. -/
def isScanOutPortMarked (module : Fin n) (scanOutPort : Option Port) (s : State n) : Bool :=
  match scanOutPort with
  | none => false
  | some port => (module, port.identifier.baseName) ∈ s.markedScanOutPorts

/-- `Process_Instance_Entry`. A chain is created when the instance is entered for the first time, and later its nodes go to the parent node of the context. -/
def processInstanceEntry (module : Fin n) (inst : Instance n) (scanOutPort : Option Port)
    (s : State n) : Except Fault (ProcessingContext n × State n) := do
  let instanceModule := net.modules inst.uniquifiedModule
  if instanceModule.scanInPorts = [] then
    throw (.runtimeError ("Expecting an instance module \"" ++ instanceModule.name ++
      "\"to have at least one ScanInPort"))
  match s.instancesContext with
  | [] => .error .undefinedBehaviour
  | context :: _ =>
    if (module, inst.name) ∉ s.associatedChains then
      let s ← State.assignNewNode
        { s with associatedChains := insert (module, inst.name) s.associatedChains }
        (.chain module inst.name)
      enterInstance inst scanOutPort (.chain module inst.name) s
    else if isScanOutPortMarked inst.uniquifiedModule scanOutPort s then
      .error (.runtimeError
        "Unexpected path again through instance output port outside of Linker context")
    else enterInstance inst scanOutPort context.parentNode s

inductive Entity (n : Nat)
  | scanRegister (scanRegister : ScanRegister)
  | inst (inst : Instance n) (scanOutPort : Option Port)

/-- The search of `FollowTopModulePath` for what is connected to a signal. -/
def sourceEntity (module : Module n) (signal : Signal) : Except Fault (Entity n) :=
  match signal with
  | .number _ => .error .undefinedBehaviour
  | .port [] identifier _ =>
    match module.findScanRegister identifier with
    | some scanRegister => .ok (.scanRegister scanRegister)
    | none =>
      -- an implicit connection: without a ScanOutPort the check for one also fails
      match module.findInstance identifier.baseName with
      | none => .error (.runtimeError ("Failed to find source entity \"" ++ signal.asText ++
          "\" (not a ScanRegister, ScanMux nor Instance with implicit connection)"))
      | some inst =>
        match (net.modules inst.uniquifiedModule).scanOutPorts with
        | [port] => .ok (.inst inst (some port))
        | ports => .error (.runtimeError ("Found usage of implicit connection of \"" ++
            signal.asText ++ "\" with more than one " ++
            (if ports = [] then "DataOutPort" else "ScanOutPort") ++
            " ==> this is not yet supported"))
  | .port [scope] identifier _ =>
    match module.findInstance scope with
    | none => .error (.runtimeError "Failed to find source entity (not an Instance)")
    | some inst =>
      .ok (.inst inst ((net.modules inst.uniquifiedModule).findScanOutPort identifier))
  | .port _ _ _ =>
    .error (.runtimeError "Expecting to have single scope depth for instance")

/-- The step of `FollowTopModulePath` that goes on inside the module. A register that is already associated ends the path. -/
def processSource (module : Fin n) (signal : Signal) (s : State n) :
    Except Fault (ProcessingContext n × State n) := do
  match ← net.sourceEntity (net.modules module) signal with
  | .scanRegister scanRegister =>
    if (module, scanRegister.baseName) ∈ s.associatedRegisters then return (none, s)
    else processScanRegister module scanRegister s
  | .inst inst scanOutPort => net.processInstanceEntry module inst scanOutPort s

/-- The end of a round of the loop: a path that arrives at an input of the instance leaves it. -/
def arrive (context : ProcessingContext n) (s : State n) :
    Except Fault (ProcessingContext n × State n) := do
  match context with
  | none => return (none, s)
  | some (module, sourceSignals) =>
    match ← isSourcedByModuleInput (net.modules module) sourceSignals with
    | some scanInPort =>
      if s.instancesContext.length > 1 then processInstanceExit net scanInPort s
      else return (some (module, sourceSignals), s)
    | none => return (some (module, sourceSignals), s)

/-- The condition of the loop: whether the path has arrived at an input of the top module. -/
def isSourcedByTopModuleInput (module : Fin n) (sourceSignals : List Signal) :
    Except Fault Bool :=
  if module = net.topModule then
    (isSourcedByModuleInput (net.modules module) sourceSignals).map Option.isSome
  else .ok false

/-- A round of the loop of `FollowTopModulePath`. -/
def followOnce (module : Fin n) (sourceSignals : List Signal) (s : State n) :
    Except Fault (ProcessingContext n × State n) := do
  if ← net.isSourcedByTopModuleInput module sourceSignals then return (none, s)
  else
    match sourceSignals with
    | [signal] =>
      match ← isSourcedByModuleInput (net.modules module) [signal] with
      | some scanInPort => processInstanceExit net scanInPort s
      | none =>
        let (context, s) ← net.processSource module signal s
        net.arrive context s
    | _ => .error (.runtimeError "Expecting source to be driven by exactly one signal")

/-- The loop of `FollowTopModulePath`. -/
def followTopModulePath : Nat → Fin n → List Signal → State n → Option (Except Fault (State n))
  | 0, _, _, _ => none
  | fuel + 1, module, sourceSignals, s =>
    match net.followOnce module sourceSignals s with
    | .error fault => some (.error fault)
    | .ok (none, s) => some (.ok s)
    | .ok (some (module, sourceSignals), s) => followTopModulePath fuel module sourceSignals s

/-- The loop of `Generate_TopModule`. -/
def generatePaths (fuel : Nat) : List Port → State n → Option (Except Fault (State n))
  | [], s => some (.ok s)
  | scanOutPort :: rest, s =>
    match scanOutPort.source with
    | none => some (.error .undefinedBehaviour)
    | some sourceSignals =>
      match net.followTopModulePath fuel net.topModule sourceSignals s with
      | none => none
      | some (.error fault) => some (.error fault)
      | some (.ok s) => generatePaths fuel rest (s.appendCreatedNodesToParent .top)

/-- Nothing is created yet; the context of the top module is on the stack. -/
def start : State n where
  instancesContext := [⟨none, net.topModule, .top⟩]
  createdNodes := []
  children := fun _ => []
  associatedRegisters := ∅
  associatedChains := ∅
  markedScanOutPorts := ∅

def generateTopModule (fuel : Nat) : Option (Except Fault (State n)) :=
  let topModule := net.modules net.topModule
  if topModule.scanInPorts = [] then
    some (.error (.runtimeError "Expecting a top module to have at least one ScanInPort"))
  else if topModule.scanOutPorts = [] then
    some (.error (.runtimeError "Expecting a top module to have at least one ScanOutPort"))
  else net.generatePaths fuel topModule.scanOutPorts net.start

end Network

end Generator

end Mast
