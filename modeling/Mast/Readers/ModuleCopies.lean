import Mast.Lib.LabelledPaths
import Mast.Lib.Program
import Mast.Readers.TopModule

/-!
# Copies of modules

Uniquification gives every instance a copy of its module. The top module is changed in place, so that a copy of it that is made on the way has the instances that are done, which refer to copies, and those that are not. The modules being copied are kept on a stack, which the top module is never pushed on.

Nodes are numbered in the order of their creation. What the parameters and the other members of the nodes go through is left open: a step on them may change them, throw, or never end, as when a parameter that leads back to itself is printed.
-/

namespace Mast

namespace ModuleCopies

open Fuel Program
open TopModule (Namespace Network)

structure ModuleIdentifier where
  moduleNamespace : Namespace
  name : String
  deriving DecidableEq

/-- `AST_Instance`. -/
structure InstanceNode where
  moduleIdentifier : ModuleIdentifier
  uniquifiedModule : Option Nat
  deriving DecidableEq

/-- `AST_Module`. -/
structure ModuleNode where
  name : String
  hasAccessLink : Bool
  instances : List Nat
  parentModule : Option Nat
  fromInstance : Option Nat
  deriving DecidableEq

/-- `AST`, with the stack `sm_clonedModules`, last pushed first. The uniquified namespace is also the one that modules are added to as long as modules are copied. -/
structure AST (ς : Type) where
  modules : List ModuleNode
  instances : List InstanceNode
  namespaces : List Namespace
  network : Network
  uniquifiedNamespace : Namespace
  uniqueIdCounter : Nat
  clonedModules : List Nat
  members : ς

inductive Error
  | circularDependency (message : String)
  | members (fault : Fault)
  | other (fault : Fault)
  deriving DecidableEq

/-- What is done with the members of modules and instances, besides the instances of modules. -/
inductive MemberStep
  /-- `JoinParameters`, `ResolveItems` and `Resolve` for the top module. -/
  | joinTop (module : Nat)
  /-- The copy of an instance, and `UniquifyItemsWithParameterRef`. -/
  | cloneInstance (inst clone : Nat)
  /-- `AST_Instance::Resolve`. -/
  | resolveInstance (inst module : Nat)
  /-- The copy of a module. -/
  | cloneModule (module clone : Nat)
  /-- What `Uniquify_impl` does before `UniquifyInstances`, with the parameters of an instance. -/
  | uniquify (module inst : Nat)
  /-- `AST_Module::Resolve`. -/
  | resolve (module : Nat)

/-- What the members become; `none` is for a step that never ends. -/
abbrev MemberSteps (ς : Type) := MemberStep → ς → Option (Except Fault ς)

abbrev Action (ς : Type) := Step (AST ς) Error

def uniquifiedName (name : String) (counter : Nat) : String :=
  name ++ "__uniquified__" ++ toString counter

section Actions

variable {ς : Type}

/-! ### Nodes -/

def onMembers (steps : MemberSteps ς) (step : MemberStep) : Action ς Unit := do
  let ast ← get
  match steps step ast.members with
  | some (.ok members) => set { ast with members }
  | some (.error fault) => throw (.members fault)
  | none => fun _ => (none : Option _)

def moduleNode (module : Nat) : Action ς ModuleNode := do
  let ast ← get
  match ast.modules[module]? with
  | some node => pure node
  | none => throw (.other .undefinedBehaviour)

def instanceNode (inst : Nat) : Action ς InstanceNode := do
  let ast ← get
  match ast.instances[inst]? with
  | some node => pure node
  | none => throw (.other .undefinedBehaviour)

/-- `m_instances[i]`. -/
def instanceAt (module i : Nat) : Action ς Nat := do
  let node ← moduleNode module
  match node.instances[i]? with
  | some inst => pure inst
  | none => throw (.other .undefinedBehaviour)

/-- `AST_Network::Module`. -/
def networkModule (identifier : ModuleIdentifier) : Action ς TopModule.Module := do
  let ast ← get
  match ast.network.module identifier.moduleNamespace identifier.name with
  | .ok module => pure module
  | .error fault => throw (.other fault)

/-- `AST_Network::AddModule`, with the uniquified namespace. -/
def addModule (module : TopModule.Module) : Action ς Unit := do
  let ast ← get
  match (Network.addModule (some ast.uniquifiedNamespace) (some module)).run ast.network with
  | .ok _ network => set { ast with network }
  | .error fault _ => throw (.other fault)

/-! ### Copies -/

/-- `AST_Instance::UniquifiedClone`. -/
def uniquifiedClone (steps : MemberSteps ς) (inst : Nat) : Action ς Nat := do
  let node ← instanceNode inst
  let ast ← get
  let clone := ast.instances.length
  set { ast with instances := ast.instances ++ [node] }
  onMembers steps (.cloneInstance inst clone)
  return clone

/-- `AST::Clone_Module`. -/
def cloneModule (steps : MemberSteps ς) (module : Nat) : Action ς Nat := do
  let node ← moduleNode module
  let ast ← get
  let clone := ast.modules.length
  let uniqueIdCounter := ast.uniqueIdCounter + 1
  let name := uniquifiedName node.name uniqueIdCounter
  set { ast with modules := ast.modules ++ [{ node with name }], uniqueIdCounter }
  addModule ⟨clone, name, node.hasAccessLink⟩
  onMembers steps (.cloneModule module clone)
  return clone

def AST.replaceInstance (ast : AST ς) (module i inst : Nat) : AST ς :=
  { ast with
    modules := ast.modules.modify module fun node =>
      { node with instances := node.instances.set i inst } }

/-- The links between an instance, the module that embeds it and the module made for it. -/
def AST.embed (ast : AST ς) (module inst newModule : Nat) (name : String) : AST ς :=
  { ast with
    modules := ast.modules.modify newModule fun node =>
      { node with parentModule := some module, fromInstance := some inst }
    instances := ast.instances.modify inst fun _ =>
      ⟨⟨ast.uniquifiedNamespace, name⟩, some newModule⟩ }

/-- The check for circular dependencies, and the push. -/
def pushCloned (instanceModule : TopModule.Module) : Action ς Unit := do
  let ast ← get
  if instanceModule.id ∈ ast.clonedModules then
    throw (.circularDependency
      ("Detected circular dependency regarding module \"" ++ instanceModule.name ++ "\""))
  else set { ast with clonedModules := instanceModule.id :: ast.clonedModules }

def popCloned : Action ς Unit :=
  modify fun ast => { ast with clonedModules := ast.clonedModules.tail }

/-- One round of `AST_Module::UniquifyInstances`. -/
def uniquifyInstance (steps : MemberSteps ς) (uniquify : (module inst : Nat) → Action ς Nat)
    (module i : Nat) : Action ς Unit := do
  let inst ← uniquifiedClone steps (← instanceAt module i)
  modify fun ast => ast.replaceInstance module i inst
  onMembers steps (.resolveInstance inst module)
  let instanceModule ← networkModule (← instanceNode inst).moduleIdentifier
  pushCloned instanceModule
  let newModule ← uniquify instanceModule.id inst
  popCloned
  let node ← moduleNode newModule
  modify fun ast => ast.embed module inst newModule node.name

/-- `AST_Module::UniquifyInstances`. -/
def uniquifyInstances (steps : MemberSteps ς) (uniquify : (module inst : Nat) → Action ς Nat)
    (module : Nat) : Action ς Unit := do
  let node ← moduleNode module
  (List.range node.instances.length).forM (uniquifyInstance steps uniquify module)

/-- `AST_Module::Uniquify`. -/
def uniquify (steps : MemberSteps ς) : (fuel : Nat) → (module inst : Nat) → Action ς Nat
  | 0, _, _ => fun _ => (none : Option _)
  | fuel + 1, module, inst => do
    let clone ← cloneModule steps module
    onMembers steps (.uniquify clone inst)
    uniquifyInstances steps (uniquify steps fuel) clone
    onMembers steps (.resolve clone)
    return clone

/-- `AST_Module::UniquifyAsTop`. -/
def uniquifyAsTop (steps : MemberSteps ς) (fuel module : Nat) : Action ς Unit := do
  modify fun ast => { ast with clonedModules := [] }
  onMembers steps (.joinTop module)
  uniquifyInstances steps (uniquify steps fuel) module

/-- `AST::Create_Namespace`. -/
def createNamespace (name : String) : Action ς Namespace := do
  let ast ← get
  match ast.namespaces.find? (·.name = name) with
  | some moduleNamespace => pure moduleNamespace
  | none =>
    let moduleNamespace : Namespace := ⟨ast.namespaces.length, name⟩
    set { ast with namespaces := ast.namespaces ++ [moduleNamespace] }
    return moduleNamespace

def uniquifiedModules : String := "UniquifiedModules"

/-- `AST::Uniquify`. -/
def uniquifyNetwork (steps : MemberSteps ς) (fuel : Nat) : Action ς Unit := do
  let uniquifiedNamespace ← createNamespace uniquifiedModules
  modify fun ast => { ast with
    uniquifiedNamespace
    network := { ast.network with uniquifiedNamespace := some uniquifiedNamespace } }
  let ast ← get
  match ast.network.topModule with
  | some top => uniquifyAsTop steps fuel top.id
  | none => throw (.other (.runtimeError "Network has no \"top\" node"))

end Actions

end ModuleCopies

end Mast
