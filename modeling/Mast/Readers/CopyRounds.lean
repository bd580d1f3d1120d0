import Mast.Readers.LinkedCopies

/-!
# Rounds of the copying of instances

A round gives one instance of a module its own module. What is there before it stays, except the module that the instance is in; what is added is linked. After the last round every instance of the module has its own module, and these mirror what the instances named before.
-/

namespace Mast

namespace ModuleCopies

open LabelledPaths Program

variable {ς : Type}

/-! ### Steps -/

section Steps

variable {s : AST ς} {failed : Option Error → Prop} {steps : MemberSteps ς}

/-- Failing is allowed where the steps on members throw or never end. -/
structure Tolerates (steps : MemberSteps ς) (failed : Option Error → Prop) : Prop where
  throws : ∀ fault, failed (some (.members fault))
  never : ∀ step members, steps step members = none → failed none

theorem moduleNode_yields {module : Nat} {node : ModuleNode} (hnode : s.modules[module]? = some node) :
    Yields (fun _ => moduleNode module) s (fun a s' => a = node ∧ s' = s) failed := by
  unfold moduleNode
  apply Yields.get
  rw [hnode]
  exact Yields.pure ⟨rfl, rfl⟩

theorem instanceNode_yields {inst : Nat} {node : InstanceNode}
    (hnode : s.instances[inst]? = some node) :
    Yields (fun _ => instanceNode inst) s (fun a s' => a = node ∧ s' = s) failed := by
  unfold instanceNode
  apply Yields.get
  rw [hnode]
  exact Yields.pure ⟨rfl, rfl⟩

theorem instanceAt_yields {module i inst : Nat} (hinst : s.instanceOf module i = some inst) :
    Yields (fun _ => instanceAt module i) s (fun a s' => a = inst ∧ s' = s) failed := by
  obtain ⟨node, hnode, hget⟩ := Option.bind_eq_some_iff.mp hinst
  unfold instanceAt
  refine Yields.next (moduleNode_yields hnode) ?_
  rw [hget]
  exact Yields.pure ⟨rfl, rfl⟩

theorem networkModule_yields {identifier : ModuleIdentifier} {module : TopModule.Module}
    (hmodule : s.network.modules.lookup (identifier.moduleNamespace, identifier.name) = some module) :
    Yields (fun _ => networkModule identifier) s (fun a s' => a = module ∧ s' = s) failed := by
  unfold networkModule
  apply Yields.get
  rw [TopModule.module_iff.mpr hmodule]
  exact Yields.pure ⟨rfl, rfl⟩

theorem onMembers_yields (hmembers : Tolerates steps failed) (step : MemberStep) (s : AST ς) :
    Yields (fun _ => onMembers steps step) s (fun _ s' => ∃ members, s' = { s with members })
      failed := by
  unfold onMembers
  apply Yields.get
  match hstep : steps step s.members with
  | some (.ok members) => exact Yields.set ⟨members, rfl⟩
  | some (.error fault) => exact Yields.throw (hmembers.throws fault)
  | none => exact Yields.never (hmembers.never step s.members hstep)

theorem uniquifiedClone_yields (hmembers : Tolerates steps failed)
    {inst : Nat} {node : InstanceNode} (hnode : s.instances[inst]? = some node) :
    Yields (fun _ => uniquifiedClone steps inst) s (fun clone s' => clone = s.instances.length ∧
      ∃ members, s' = { s with instances := s.instances ++ [node], members }) failed := by
  unfold uniquifiedClone
  refine Yields.next (instanceNode_yields hnode) ?_
  apply Yields.get
  refine Yields.next (Yields.set ⟨rfl, rfl⟩) ?_
  refine Yields.bind (onMembers_yields hmembers _ _) ?_
  rintro _ _ ⟨members, rfl⟩
  exact Yields.pure ⟨rfl, members, rfl⟩

theorem pushCloned_yields {module : TopModule.Module}
    (hcircular : module.id ∈ s.clonedModules →
      ∀ message, failed (some (.circularDependency message))) :
    Yields (fun _ => pushCloned module) s (fun _ s' => module.id ∉ s.clonedModules ∧
      s' = { s with clonedModules := module.id :: s.clonedModules }) failed := by
  unfold pushCloned
  apply Yields.get
  by_cases hmem : module.id ∈ s.clonedModules
  · rw [if_pos hmem]
    exact Yields.throw (hcircular hmem _)
  · rw [if_neg hmem]
    exact Yields.set ⟨hmem, rfl⟩

/-- The state after a module is copied, before its members are. -/
def AST.withCopy (ast : AST ς) (node : ModuleNode) (network : TopModule.Network) (members : ς) :
    AST ς :=
  { ast with
    modules := ast.modules ++
      [{ node with name := uniquifiedName node.name (ast.uniqueIdCounter + 1) }]
    uniqueIdCounter := ast.uniqueIdCounter + 1
    network
    members }

theorem addModule_yields (huniquified : s.network.uniquifiedNamespace = some s.uniquifiedNamespace)
    (module : TopModule.Module) :
    Yields (fun _ => addModule module) s (fun a s' => a = () ∧ s' = { s with
      network := { TopModule.registered s.network s.uniquifiedNamespace module with
        first := s.network.first <|> some module } }) failed := by
  have hother : ¬(s.network.uniquifiedNamespace ≠ some s.uniquifiedNamespace ∧
      module.hasAccessLink = true) := fun h => h.1 huniquified
  unfold addModule
  apply Yields.get
  rw [TopModule.addModule_other hother]
  exact Yields.set ⟨rfl, rfl⟩

theorem cloneModule_yields (hmembers : Tolerates steps failed) (hsound : Sound s)
    {module : Nat} {node : ModuleNode}
    (hnode : s.modules[module]? = some node) :
    Yields (fun _ => cloneModule steps module) s (fun clone s' => clone = s.modules.length ∧
      ∃ network members, s' = s.withCopy node network members ∧
        network.modules = s.network.modules.insert
          (s.uniquifiedNamespace, uniquifiedName node.name (s.uniqueIdCounter + 1))
          ⟨s.modules.length, uniquifiedName node.name (s.uniqueIdCounter + 1), node.hasAccessLink⟩ ∧
        network.uniquifiedNamespace = s.network.uniquifiedNamespace) failed := by
  unfold cloneModule
  refine Yields.next (moduleNode_yields hnode) ?_
  apply Yields.get
  refine Yields.next (Yields.set ⟨rfl, rfl⟩) ?_
  refine Yields.next (addModule_yields (by exact hsound.uniquifiedNamespace) _) ?_
  refine Yields.bind (onMembers_yields hmembers _ _) ?_
  rintro _ _ ⟨members, rfl⟩
  exact Yields.pure ⟨rfl, _, members, rfl, rfl, rfl⟩

end Steps

/-! ### One round -/

/-- The state in which the module of an instance is uniquified. -/
def AST.calling (ast : AST ς) (module i instanceModule : Nat) (node : InstanceNode) (members : ς) :
    AST ς :=
  { ast.replaceInstance module i ast.instances.length with
    instances := ast.instances ++ [node]
    clonedModules := instanceModule :: ast.clonedModules
    members }

/-- The state after the module of an instance is uniquified. -/
def AST.answered (ast : AST ς) (module inst newModule : Nat) (name : String) : AST ς :=
  { ast with clonedModules := ast.clonedModules.tail }.embed module inst newModule name

theorem uniquifyInstance_yields {s : AST ς} {failed : Option Error → Prop} {steps : MemberSteps ς}
    (hmembers : Tolerates steps failed)
    {uniquify : Nat → (module inst : Nat) → Action ς Nat} {module i inst : Nat} {node : InstanceNode}
    {instanceModule : TopModule.Module} (Post : AST ς → Nat → ModuleNode → AST ς → Prop)
    (hinst : s.instanceOf module i = some inst) (hnode : s.instances[inst]? = some node)
    (hmodule : s.network.modules.lookup
      (node.moduleIdentifier.moduleNamespace, node.moduleIdentifier.name) = some instanceModule)
    (hcircular : instanceModule.id ∈ s.clonedModules →
      ∀ message, failed (some (.circularDependency message)))
    (hcall : instanceModule.id ∉ s.clonedModules → ∀ members,
      Yields (fun fuel => uniquify fuel instanceModule.id s.instances.length)
        (s.calling module i instanceModule.id node members)
        (fun new s' => ∃ newNode, s'.modules[new]? = some newNode ∧
          Post (s.calling module i instanceModule.id node members) new newNode s') failed) :
    Yields (fun fuel => uniquifyInstance steps (uniquify fuel) module i) s
      (fun _ s' => ∃ members new newNode s₂,
        Post (s.calling module i instanceModule.id node members) new newNode s₂ ∧
          s' = s₂.answered module s.instances.length new newNode.name) failed := by
  unfold uniquifyInstance
  refine Yields.next (instanceAt_yields hinst) ?_
  refine Yields.bind (uniquifiedClone_yields hmembers hnode) ?_
  rintro _ _ ⟨rfl, members₁, rfl⟩
  refine Yields.next (Yields.modifies ⟨rfl, rfl⟩) ?_
  refine Yields.bind (onMembers_yields hmembers _ _) ?_
  rintro _ _ ⟨members, rfl⟩
  have hclone : (s.instances ++ [node])[s.instances.length]? = some node := List.getElem?_concat_length
  refine Yields.next (instanceNode_yields hclone) ?_
  refine Yields.next (networkModule_yields hmodule) ?_
  refine Yields.bind (pushCloned_yields hcircular) ?_
  rintro _ _ ⟨hother, rfl⟩
  refine Yields.bind (hcall hother members) ?_
  rintro new s₂ ⟨newNode, hnew, hpost⟩
  refine Yields.next (Yields.modifies ⟨rfl, rfl⟩) ?_
  refine Yields.next (moduleNode_yields hnew) ?_
  exact Yields.modifies ⟨members, new, newNode, s₂, hpost, rfl⟩

/-! ### What a round keeps and adds -/

/-- What the uniquification of a module leaves: a copy with everything below it linked, which mirrors the module. -/
structure Copied (b s : AST ς) (module new : Nat) (newNode : ModuleNode) (s' : AST ς) : Prop where
  grows : Extends s s'
  sound : Sound s'
  uniquifiedNamespace : s'.uniquifiedNamespace = s.uniquifiedNamespace
  clonedModules : s'.clonedModules = s.clonedModules
  new_eq : new = s.modules.length
  node : s'.modules[new]? = some newNode
  registered : s'.network.modules.lookup (s'.uniquifiedNamespace, newNode.name) =
    some ⟨new, newNode.name, newNode.hasAccessLink⟩
  mirrors : Mirrors (CopyOf b s') s'.uniquified b.instantiated new module
  linked : LinkedFrom s' s.instances.length s.modules.length

/-- What holds after the first rounds for the instances of a module. -/
structure Rounds (b : AST ς) (module : Nat) (s₀ : AST ς) (count : Nat) (s : AST ς) : Prop where
  modules : ∀ (d : Nat) node, d ≠ module → s₀.modules[d]? = some node → s.modules[d]? = some node
  instances : ∀ (inst : Nat) node, s₀.instances[inst]? = some node → s.instances[inst]? = some node
  registered : ∀ key found, s₀.network.modules.lookup key = some found →
    s.network.modules.lookup key = some found
  sound : Sound s
  uniquifiedNamespace : s.uniquifiedNamespace = s₀.uniquifiedNamespace
  clonedModules : s.clonedModules = s₀.clonedModules
  node : ∃ node instances, s₀.modules[module]? = some node ∧
    s.modules[module]? = some { node with instances } ∧ instances.length = node.instances.length
  ahead : ∀ i, count ≤ i → s.instanceOf module i = s₀.instanceOf module i
  behind : ∀ i inst, i < count → s.instanceOf module i = some inst →
    s₀.instances.length ≤ inst ∧ ∃ new m, s₀.modules.length ≤ new ∧
      LinkedInstance s module inst new ∧ s₀.instantiated module i = some m ∧
      Mirrors (CopyOf b s) s.uniquified b.instantiated new m
  separate : ∀ i j inst, i < count → j < count → s.instanceOf module i = some inst →
    s.instanceOf module j = some inst → i = j
  linked : LinkedFrom s s₀.instances.length s₀.modules.length

section Round

variable {b s₀ s s₂ : AST ς} {module i k inst new m : Nat} {node : InstanceNode}
  {members : ς} {name : String}

theorem calling_modules {d : Nat} {found : ModuleNode} (hd : d ≠ module)
    (hfound : s.modules[d]? = some found) :
    (s.calling module i k node members).modules[d]? = some found := by
  rw [← hfound]
  exact List.getElem?_modify_ne _ _ hd.symm

theorem calling_module {found : ModuleNode} (hfound : s.modules[module]? = some found) :
    (s.calling module i k node members).modules[module]? =
      some { found with instances := found.instances.set i s.instances.length } := by
  change (s.modules.modify module _)[module]? = _
  rw [List.getElem?_modify_eq, hfound]
  rfl

theorem calling_modules_length :
    (s.calling module i k node members).modules.length = s.modules.length :=
  List.length_modify ..

theorem calling_instances {found : InstanceNode} (hfound : s.instances[inst]? = some found) :
    (s.calling module i k node members).instances[inst]? = some found := by
  rw [← hfound]
  exact List.getElem?_append_left (getElem?_lt hfound)

theorem calling_instance :
    (s.calling module i k node members).instances[s.instances.length]? = some node :=
  List.getElem?_concat_length

theorem calling_instanceOf (hinst : s.instanceOf module i = some inst) (j : Nat) :
    (s.calling module i k node members).instanceOf module j =
      if j = i then some s.instances.length else s.instanceOf module j := by
  obtain ⟨found, hfound, hget⟩ := Option.bind_eq_some_iff.mp hinst
  rw [AST.instanceOf, AST.instanceOf, calling_module hfound, hfound]
  change (found.instances.set i s.instances.length)[j]? = if j = i then _ else found.instances[j]?
  rw [List.getElem?_set]
  by_cases hj : j = i
  · rw [if_pos hj.symm, if_pos hj, if_pos (getElem?_lt hget)]
  · rw [if_neg (Ne.symm hj), if_neg hj]

theorem calling_moduleOf {m : Nat} (hm : s.moduleOf inst = some m) :
    (s.calling module i k node members).moduleOf inst = some m := by
  obtain ⟨inode, hinode, hlookup⟩ := Option.bind_eq_some_iff.mp hm
  rw [AST.moduleOf, calling_instances hinode]
  exact hlookup

theorem answered_modules {d : Nat} (hd : d ≠ new) :
    (s.answered module inst new name).modules[d]? = s.modules[d]? :=
  List.getElem?_modify_ne _ _ hd.symm

theorem answered_module {found : ModuleNode} (hfound : s.modules[new]? = some found) :
    (s.answered module inst new name).modules[new]? =
      some { found with parentModule := some module, fromInstance := some inst } := by
  change (s.modules.modify new _)[new]? = _
  rw [List.getElem?_modify_eq, hfound]
  rfl

theorem answered_instances {j : Nat} (hj : j ≠ inst) :
    (s.answered module inst new name).instances[j]? = s.instances[j]? :=
  List.getElem?_modify_ne _ _ hj.symm

theorem answered_instance {found : InstanceNode} (hfound : s.instances[inst]? = some found) :
    (s.answered module inst new name).instances[inst]? =
      some ⟨⟨s.uniquifiedNamespace, name⟩, some new⟩ := by
  change (s.instances.modify inst _)[inst]? = _
  rw [List.getElem?_modify_eq, hfound]
  rfl

theorem answered_modules_length :
    (s.answered module inst new name).modules.length = s.modules.length :=
  List.length_modify ..

theorem Rounds.module_lt (hrounds : Rounds b module s₀ i s) : module < s₀.modules.length := by
  obtain ⟨node, -, hnode, -⟩ := hrounds.node
  exact getElem?_lt hnode

theorem Rounds.modules_le (hrounds : Rounds b module s₀ i s) :
    s₀.modules.length ≤ s.modules.length := by
  by_contra hlt
  have hget := List.getElem?_eq_getElem (Nat.lt_of_not_le hlt)
  by_cases hsame : s.modules.length = module
  · obtain ⟨node, instances, -, hnode, -⟩ := hrounds.node
    have hget' := getElem?_lt hnode
    omega
  · exact absurd (getElem?_lt (hrounds.modules _ _ hsame hget)) (Nat.lt_irrefl _)

theorem Rounds.instances_le (hrounds : Rounds b module s₀ i s) :
    s₀.instances.length ≤ s.instances.length := by
  by_contra hlt
  have hget := List.getElem?_eq_getElem (Nat.lt_of_not_le hlt)
  exact absurd (getElem?_lt (hrounds.instances _ _ hget)) (Nat.lt_irrefl _)

theorem Rounds.moduleOf (hrounds : Rounds b module s₀ i s) (hm : s₀.moduleOf inst = some m) :
    s.moduleOf inst = some m := by
  obtain ⟨inode, hinode, hlookup⟩ := Option.bind_eq_some_iff.mp hm
  obtain ⟨found, hfound, hid⟩ := Option.map_eq_some_iff.mp hlookup
  rw [AST.moduleOf, hrounds.instances _ _ hinode, Option.bind_some, hrounds.registered _ _ hfound]
  exact congrArg some hid

theorem Rounds.start {node : ModuleNode} (hnode : s₀.modules[module]? = some node)
    (hsound : Sound s₀) : Rounds b module s₀ 0 s₀ where
  modules _ _ _ h := h
  instances _ _ h := h
  registered _ _ h := h
  sound := hsound
  uniquifiedNamespace := rfl
  clonedModules := rfl
  node := ⟨node, node.instances, hnode, hnode, rfl⟩
  ahead _ _ := rfl
  behind _ _ h := absurd h (Nat.not_lt_zero _)
  separate _ _ _ h := absurd h (Nat.not_lt_zero _)
  linked _ hd hlt := absurd hlt (Nat.not_lt.mpr hd)

section Next

variable {newNode : ModuleNode}
  (hrounds : Rounds b module s₀ i s) (hinst : s.instanceOf module i = some inst)
  (hcopied : Copied b (s.calling module i k node members) m new newNode s₂)

abbrev afterRound (s s₂ : AST ς) (module new : Nat) (newNode : ModuleNode) : AST ς :=
  s₂.answered module s.instances.length new newNode.name

include hcopied

theorem copied_new : new = s.modules.length :=
  hcopied.new_eq.trans calling_modules_length

theorem after_modules {d : Nat} {found : ModuleNode} (hd : d ≠ module)
    (hfound : s.modules[d]? = some found) :
    (afterRound s s₂ module new newNode).modules[d]? = some found := by
  have hlt := getElem?_lt hfound
  have hnew := copied_new hcopied
  rw [answered_modules (by omega)]
  exact hcopied.grows.modules _ _ (calling_modules hd hfound)

theorem after_instances {j : Nat} {found : InstanceNode} (hfound : s.instances[j]? = some found) :
    (afterRound s s₂ module new newNode).instances[j]? = some found := by
  have hlt := getElem?_lt hfound
  rw [answered_instances (by omega)]
  exact hcopied.grows.instances _ _ (calling_instances hfound)

theorem after_registered {key : TopModule.Key} {found : TopModule.Module}
    (hfound : s.network.modules.lookup key = some found) :
    (afterRound s s₂ module new newNode).network.modules.lookup key = some found :=
  hcopied.grows.registered _ _ hfound

theorem after_linked (hmodule : module < s.modules.length) :
    LinkedInstance (afterRound s s₂ module new newNode) module s.instances.length new := by
  have hinode : (afterRound s s₂ module new newNode).instances[s.instances.length]? =
      some ⟨⟨s₂.uniquifiedNamespace, newNode.name⟩, some new⟩ :=
    answered_instance (hcopied.grows.instances _ _ calling_instance)
  refine ⟨?_, ?_, ?_, _, answered_module hcopied.node, rfl, rfl⟩
  · rw [AST.uniquifiedModule, hinode]
    rfl
  · rw [AST.moduleOf, hinode]
    change (s₂.network.modules.lookup (s₂.uniquifiedNamespace, newNode.name)).map _ = _
    rw [hcopied.registered]
    rfl
  · have hnew := copied_new hcopied
    omega

theorem after_mirrors : Mirrors (CopyOf b (afterRound s s₂ module new newNode))
    (afterRound s s₂ module new newNode).uniquified b.instantiated new m := by
  have hnew := hcopied.new_eq
  refine mirrors_lasts hcopied.linked ?_ ?_ (by omega) (getElem?_lt hcopied.node) hcopied.mirrors
  · intro d found _ hfound
    by_cases hd : d = new
    · rw [hd] at hfound ⊢
      exact ⟨_, answered_module hfound, rfl, rfl⟩
    · exact ⟨found, (answered_modules hd).trans hfound, rfl, rfl⟩
  · intro j found hj hfound
    have hlength := getElem?_lt (@calling_instance _ s module i k node members)
    rw [answered_instances (by omega)]
    exact hfound

/-- What is below the new module stays linked. -/
theorem after_linkedFrom : ∀ d, new ≤ d → d < s₂.modules.length →
    Linked (afterRound s s₂ module new newNode) s.instances.length d := by
  intro d hd hlt
  have hnew := hcopied.new_eq
  have hlength := getElem?_lt (@calling_instance _ s module i k node members)
  have hlinked := hcopied.linked d (by omega) hlt
  suffices hlast : Linked (afterRound s s₂ module new newNode)
      (s.calling module i k node members).instances.length d from hlast.mono (Nat.le_of_lt hlength)
  refine hlinked.lasts ?_ ?_ (fun _ _ h => h) ?_
  · intro j
    by_cases hsame : d = new
    · rw [hsame, AST.instanceOf, AST.instanceOf, answered_module hcopied.node, hcopied.node]
      rfl
    · rw [AST.instanceOf, AST.instanceOf, answered_modules hsame]
  · intro j found hj hfound
    rw [answered_instances (by omega)]
    exact hfound
  · intro e found he hfound
    rw [answered_modules (by omega)]
    exact hfound

include hrounds

theorem after_node : ∃ found instances, s₀.modules[module]? = some found ∧
    (afterRound s s₂ module new newNode).modules[module]? = some { found with instances } ∧
      instances.length = found.instances.length := by
  obtain ⟨found, instances, hfound, hnow, hlength⟩ := hrounds.node
  have hnew := copied_new hcopied
  have hlt := getElem?_lt hnow
  refine ⟨found, instances.set i s.instances.length, hfound, ?_, ?_⟩
  · rw [answered_modules (by omega)]
    exact hcopied.grows.modules _ _ (calling_module hnow)
  · rw [List.length_set]
    exact hlength

include hinst

theorem after_instanceOf (j : Nat) :
    (afterRound s s₂ module new newNode).instanceOf module j =
      if j = i then some s.instances.length else s.instanceOf module j := by
  have hlt := Nat.lt_of_lt_of_le hrounds.module_lt hrounds.modules_le
  have hnew := copied_new hcopied
  have hcalled : module < (s.calling module i k node members).modules.length := by
    rw [calling_modules_length]
    exact hlt
  rw [← calling_instanceOf hinst, ← hcopied.grows.instanceOf hcalled, AST.instanceOf, AST.instanceOf,
    answered_modules (by omega)]

theorem Rounds.next (hm : s₀.instantiated module i = some m) :
    Rounds b module s₀ (i + 1) (afterRound s s₂ module new newNode) := by
  have hmodules_le := hrounds.modules_le
  have hinstances_le := hrounds.instances_le
  have hmodule := hrounds.module_lt
  have hnew := copied_new hcopied
  have hinstanceOf := after_instanceOf hrounds hinst hcopied
  constructor
  · exact fun d found hd hfound => after_modules hcopied hd (hrounds.modules d found hd hfound)
  · exact fun j found hfound => after_instances hcopied (hrounds.instances j found hfound)
  · exact fun key found hfound => after_registered hcopied (hrounds.registered key found hfound)
  · exact ⟨hcopied.sound.uniquifiedNamespace, hcopied.sound.free⟩
  · exact hcopied.uniquifiedNamespace.trans hrounds.uniquifiedNamespace
  · have hstack : s₂.clonedModules = k :: s.clonedModules := hcopied.clonedModules
    change s₂.clonedModules.tail = _
    rw [hstack]
    exact hrounds.clonedModules
  · exact after_node hrounds hcopied
  · intro j hj
    rw [hinstanceOf, if_neg (by omega)]
    exact hrounds.ahead j (by omega)
  · intro j other hj hother
    rw [hinstanceOf] at hother
    by_cases hsame : j = i
    · rw [if_pos hsame] at hother
      cases hother
      rw [hsame]
      exact ⟨hinstances_le, new, m, by omega, after_linked hcopied (by omega), hm,
        after_mirrors hcopied⟩
    · rw [if_neg hsame] at hother
      obtain ⟨hlow, new', m', hnew', hlinked, hm', hmirrors⟩ :=
        hrounds.behind j other (by omega) hother
      obtain ⟨found, hfound, -⟩ := hlinked.node
      refine ⟨hlow, new', m', hnew', ?_, hm', ?_⟩
      · refine hlinked.lasts (fun _ h => after_instances hcopied h)
          (fun _ _ h => after_registered hcopied h) fun _ h => after_modules hcopied ?_ h
        omega
      · refine mirrors_lasts hrounds.linked ?_ (fun _ _ _ h => after_instances hcopied h) hnew'
          (getElem?_lt hfound) hmirrors
        exact fun d n hd h => ⟨n, after_modules hcopied (by omega) h, rfl, rfl⟩
  · intro j j' other hj hj' hother hother'
    rw [hinstanceOf] at hother hother'
    have hold : ∀ j'' < i + 1, j'' ≠ i → s.instanceOf module j'' = some other →
        other < s.instances.length := by
      intro j'' hlt hne h
      obtain ⟨-, new', m', -, hlinked, -⟩ := hrounds.behind j'' other (by omega) h
      obtain ⟨inode, hinode, -⟩ := Option.bind_eq_some_iff.mp hlinked.uniquified
      exact getElem?_lt hinode
    by_cases hsame : j = i
    · by_cases hsame' : j' = i
      · exact hsame.trans hsame'.symm
      · rw [if_pos hsame] at hother
        rw [if_neg hsame'] at hother'
        have hlt := hold j' hj' hsame' hother'
        cases hother
        exact absurd hlt (Nat.lt_irrefl _)
    · by_cases hsame' : j' = i
      · rw [if_neg hsame] at hother
        rw [if_pos hsame'] at hother'
        have hlt := hold j hj hsame hother
        cases hother'
        exact absurd hlt (Nat.lt_irrefl _)
      · rw [if_neg hsame] at hother
        rw [if_neg hsame'] at hother'
        exact hrounds.separate j j' other (by omega) (by omega) hother hother'
  · intro d hd hlt
    by_cases hold : d < s.modules.length
    · refine (hrounds.linked d hd hold).lasts ?_ (fun _ _ _ h => after_instances hcopied h)
        (fun _ _ h => after_registered hcopied h) fun e n he h => after_modules hcopied (by omega) h
      intro j
      have hget := List.getElem?_eq_getElem hold
      rw [AST.instanceOf, AST.instanceOf, hget, after_modules hcopied (by omega) hget]
    · have hlt' : d < s₂.modules.length := by
        rw [← answered_modules_length (s := s₂)]
        exact hlt
      exact (after_linkedFrom hcopied d (by omega) hlt').mono hinstances_le

end Next

end Round

end ModuleCopies

end Mast
