import Mast.Readers.ParameterText

/-!
# Uniquification

Each instance of a module gets a module of its own. The definitions of its parameters and the expressions that refer to parameters are cloned, the overrides of the instance replace the defaults, and every reference is resolved: those of an instance with its own parameters followed by the ones of the embedding module, those of a module with the parameters and local parameters of the module. The top module is not cloned.
-/

namespace Mast

namespace AST

open Program

def VectorIdentifier.exprs (identifier : VectorIdentifier) : List IntegerExpr :=
  identifier.left.toList ++ identifier.right.toList

/-- The expressions of a module itself. -/
def Module.exprs (module : Module) : List IntegerExpr :=
  module.parameters.map (·.number) ++ module.localParameters.map (·.number) ++
    module.identifiers.flatMap (·.exprs)

/-- The expressions that a module overrides the parameters of its instances with. -/
def Module.overrides (module : Module) : List IntegerExpr :=
  module.instances.flatMap fun inst => inst.parameters.map (·.number)

/-- A network as it is parsed. The references are the nodes created for the parameter references, and no expression shares one with another. The modules are those besides the top one, under the names that instances know them by. -/
structure Network where
  references : List String
  modules : List Module
  top : Module
  declared : ∀ expr ∈ top.exprs ++ top.overrides ++ modules.flatMap (fun m => m.exprs ++ m.overrides),
    ∀ node ∈ expr.references, node < references.length
  separate : ((top.exprs ++ top.overrides ++
    modules.flatMap (fun m => m.exprs ++ m.overrides)).flatMap (·.references)).Nodup

namespace Network

def nodes (net : Network) : Nodes :=
  net.references.map fun name => ⟨some name, none⟩

/-- `AST_Network::Module`. -/
def module (net : Network) (name : String) : Option Module :=
  net.modules.find? (·.name = name)

end Network

inductive UniquifiedModule
  | mk (parameters : List Parameter) (identifiers : List VectorIdentifier)
      (instances : List (Instance × UniquifiedModule))

namespace UniquifiedModule

def parameters : UniquifiedModule → List Parameter
  | .mk parameters _ _ => parameters

def identifiers : UniquifiedModule → List VectorIdentifier
  | .mk _ identifiers _ => identifiers

def instances : UniquifiedModule → List (Instance × UniquifiedModule)
  | .mk _ _ instances => instances

end UniquifiedModule

/-- What `UniquifyOrUpdateParameters` makes of a parameter. -/
def Parameter.uniquifyOrUpdate (fuel : Nat) (instanceParameters : List Parameter)
    (parameter : Parameter) : Step Nodes Fault Parameter :=
  ((find parameter.name instanceParameters).getD parameter).cloneReferences fuel

/-- `AST_Module::UniquifyOrUpdateParameters`. -/
def Module.uniquifyOrUpdateParameters (fuel : Nat) (instanceParameters : List Parameter)
    (module : Module) : Step Nodes Fault (List Parameter) := do
  let parameters ← module.parameters.mapM (·.uniquifyOrUpdate fuel instanceParameters)
  let localParameters ← module.localParameters.mapM (·.cloneReferences fuel)
  pure (parameters ++ localParameters)

/-- `AST_Instance::UniquifiedClone`. -/
def Instance.uniquifiedClone (fuel : Nat) (inst : Instance) : Step Nodes Fault Instance := do
  let parameters ← inst.parameters.mapM (·.cloneReferences fuel)
  pure { inst with parameters }

/-- `AST_Instance::Resolve`. -/
def Instance.resolve (fuel : Nat) (moduleParameters : List Parameter) (inst : Instance) :
    Step Nodes Fault Unit :=
  inst.parameters.forM (·.resolve fuel (inst.parameters ++ moduleParameters))

namespace Network

/-- The module of an instance, unless it is being cloned already. An instance of the top module closes a circle, too. -/
def instanceModule (net : Network) (clonedModules : List String) (name : String) :
    Step Nodes Fault Module :=
  match net.module name with
  | some module =>
    if module.name ∈ clonedModules then
      throw (.runtimeError s!"Detected circular dependency regarding module \"{name}\"")
    else pure module
  | none =>
    if net.top.name = name then
      throw (.runtimeError s!"Detected circular dependency regarding module \"{name}\"")
    else throw (.invalidArgument s!"Have no module with name \"{name}\" in namespace \"\"")

/-- One round of `AST_Module::UniquifyInstances`. -/
def uniquifyInstance (net : Network)
    (uniquify : List String → Module → List Parameter → Step Nodes Fault UniquifiedModule)
    (fuel : Nat) (clonedModules : List String) (parameters : List Parameter) (inst : Instance) :
    Step Nodes Fault (Instance × UniquifiedModule) := do
  let inst ← inst.uniquifiedClone fuel
  inst.resolve fuel parameters
  let instanceModule ← net.instanceModule clonedModules inst.moduleIdentifier
  let newModule ← uniquify (instanceModule.name :: clonedModules) instanceModule inst.parameters
  pure (inst, newModule)

/-- `AST_Module::Uniquify`. -/
def uniquify (net : Network) :
    Nat → List String → Module → List Parameter → Step Nodes Fault UniquifiedModule
  | 0, _, _, _ => fun _ => (none : Option _)
  | fuel + 1, clonedModules, module, instanceParameters => do
    let parameters ← module.uniquifyOrUpdateParameters fuel instanceParameters
    parameters.forM (·.resolve fuel parameters)
    let identifiers ← module.identifiers.mapM (·.uniquifiedClone fuel)
    let instances ← module.instances.mapM
      (net.uniquifyInstance (net.uniquify fuel) fuel clonedModules parameters)
    identifiers.forM (·.resolve fuel parameters)
    pure (.mk parameters identifiers instances)

/-- `AST_Module::UniquifyAsTop`. -/
def uniquifyAsTop (net : Network) (fuel : Nat) : Step Nodes Fault UniquifiedModule := do
  let parameters := net.top.parameters ++ net.top.localParameters
  parameters.forM (·.resolve fuel parameters)
  net.top.identifiers.forM (·.resolve fuel parameters)
  let instances ← net.top.instances.mapM
    (net.uniquifyInstance (net.uniquify fuel) fuel [] parameters)
  pure (.mk parameters net.top.identifiers instances)

end Network

end AST

end Mast
