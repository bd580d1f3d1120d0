import Mast.Readers.Numbers
import Mast.Scan.SelectorTables

/-!
# Uniquified networks of scan registers

The AST of a network that has been uniquified and has no `ScanMux`: modules with their ports, registers and instances, and the signals that source them. A name finds the first element of a list with it, and the indices of a name do not count, except for the ports that `IsSourcedByModuleInput` looks through.
-/

namespace Mast

namespace Generator

inductive Indices
  | scalar
  | single (left : UInt32)
  | range (left right : UInt32)
  deriving DecidableEq, Repr

/-- `AST_VectorIdentifier`. -/
structure VectorIdentifier where
  baseName : String
  indices : Indices
  deriving DecidableEq, Repr

namespace VectorIdentifier

def asText (identifier : VectorIdentifier) : String :=
  match identifier.indices with
  | .scalar => identifier.baseName
  | .single left => identifier.baseName ++ "[" ++ toString left ++ "]"
  | .range left right =>
    identifier.baseName ++ "[" ++ toString left ++ ":" ++ toString right ++ "]"

/-- `BitsCount`, in 32 bits. -/
def bitsCount (identifier : VectorIdentifier) : UInt32 :=
  match identifier.indices with
  | .range left right => if left > right then 1 + (left - right) else 1 + (right - left)
  | _ => 1

def width (identifier : VectorIdentifier) : Nat :=
  match identifier.indices with
  | .range left right =>
    if left > right then 1 + (left.toNat - right.toNat) else 1 + (right.toNat - left.toNat)
  | _ => 1

/-- Only the whole range of 32 bits is not counted. -/
theorem bitsCount_toNat (identifier : VectorIdentifier) :
    identifier.bitsCount.toNat = identifier.width % uint32Size := by
  have hone : (1 : UInt32).toNat = 1 := rfl
  unfold bitsCount width uint32Size
  cases identifier.indices with
  | scalar => rfl
  | single left => rfl
  | range left right =>
    by_cases hgt : left > right
    · have hlt : right.toNat < left.toNat := UInt32.lt_iff_toNat_lt.mp hgt
      simp only [hgt, if_true, UInt32.toNat_add, hone,
        UInt32.toNat_sub_of_le left right (UInt32.le_iff_toNat_le.mpr hlt.le)]
    · have hle : left.toNat ≤ right.toNat :=
        Nat.le_of_not_lt fun hlt => hgt (UInt32.lt_iff_toNat_lt.mpr hlt)
      simp only [hgt, if_false, UInt32.toNat_add, hone,
        UInt32.toNat_sub_of_le right left (UInt32.le_iff_toNat_le.mpr hle)]

theorem width_le (identifier : VectorIdentifier) : identifier.width ≤ uint32Size := by
  unfold width uint32Size
  cases identifier.indices with
  | scalar => exact Nat.one_le_two_pow
  | single left => exact Nat.one_le_two_pow
  | range left right =>
    have hleft := left.toNat_lt
    have hright := right.toNat_lt
    by_cases hgt : left > right <;> simp only [hgt, if_true, if_false] <;> omega

end VectorIdentifier

/-- `AST_Signal`. A number has no `PortName`. -/
inductive Signal
  | number (text : String)
  | port (portScope : List String) (portName : VectorIdentifier) (isInverted : Bool)
  deriving DecidableEq, Repr

def Signal.asText : Signal → String
  | .number text => text
  | .port portScope portName isInverted =>
    (if isInverted then "~" else "") ++ String.join (portScope.map (· ++ ".")) ++ portName.asText

/-- `AST_Port`; a source is the list of its signals. -/
structure Port where
  identifier : VectorIdentifier
  source : Option (List Signal)
  deriving DecidableEq, Repr

/-- `Name`, with its indices. -/
def Port.name (port : Port) : String := port.identifier.asText

/-- `AST_ScanRegister`. -/
structure ScanRegister where
  identifier : VectorIdentifier
  resetValue : Option AST.ResolvedNumber
  scanInSource : List Signal

def ScanRegister.baseName (scanRegister : ScanRegister) : String := scanRegister.identifier.baseName

/-- `AST_Instance`, in a network of so many modules. -/
structure Instance (n : Nat) where
  name : String
  uniquifiedModule : Fin n
  inputPorts : List Port
  deriving DecidableEq, Repr

def Instance.findInputPort {n : Nat} (inst : Instance n) (identifier : VectorIdentifier) :
    Option Port :=
  inst.inputPorts.find? (·.identifier.baseName = identifier.baseName)

/-- `AST_Module`. -/
structure Module (n : Nat) where
  name : String
  scanInPorts : List Port
  scanOutPorts : List Port
  scanRegisters : List ScanRegister
  instances : List (Instance n)

namespace Module

variable {n : Nat} (module : Module n) (identifier : VectorIdentifier)

def findScanInPort : Option Port :=
  module.scanInPorts.find? (·.identifier.baseName = identifier.baseName)

def findScanOutPort : Option Port :=
  module.scanOutPorts.find? (·.identifier.baseName = identifier.baseName)

def findScanRegister : Option ScanRegister :=
  module.scanRegisters.find? (·.baseName = identifier.baseName)

def findInstance (name : String) : Option (Instance n) :=
  module.instances.find? (·.name = name)

end Module

structure Network (n : Nat) where
  modules : Fin n → Module n
  topModule : Fin n

/-- Every instance has a module of its own, and the top module is not instantiated. -/
structure Network.Uniquified {n : Nat} (net : Network n) : Prop where
  unique : ∀ {m m' : Fin n} {inst inst' : Instance n}, inst ∈ (net.modules m).instances →
    inst' ∈ (net.modules m').instances → inst.uniquifiedModule = inst'.uniquifiedModule →
      m = m' ∧ inst = inst'
  top : ∀ {m : Fin n} {inst : Instance n}, inst ∈ (net.modules m).instances →
    inst.uniquifiedModule ≠ net.topModule

end Generator

end Mast
