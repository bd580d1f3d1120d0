import Mast.Readers.UniquifiedParameters
import Mathlib.Data.Finset.Card
import Mathlib.Data.Finset.SDiff
import Mathlib.Data.List.Flatten

/-!
# The uniquified network

Unless it throws, uniquification ends exactly when the text of each parameter ends that a reference is resolved with. Then each module it makes realises the scope of its instance, where the overrides are read with the instance's own parameters in front of those of the embedding module.
-/

namespace Mast

namespace AST

open Program TermGraph

variable {names : List String} {nodes nodes' : Nodes} {touched : Nat → Prop}

/-! ### Instances and modules -/

/-- The expressions that are only cloned are as they were parsed. -/
def Network.Intact (net : Network) (nodes : Nodes) : Prop :=
  ∀ expr ∈ net.top.overrides ++ net.modules.flatMap (fun m => m.exprs ++ m.overrides),
    Unresolved net.references nodes expr

theorem Network.Intact.grows {net : Network} (hintact : net.Intact nodes)
    (hgrows : Grows (nodes.length ≤ ·) nodes nodes') : net.Intact nodes' := by
  intro expr hexpr node hnode
  obtain ⟨name, hname, hunresolved⟩ := hintact expr hexpr node hnode
  have hlt := lt_length_of_some hunresolved
  exact ⟨name, hname, hgrows.kept (Nat.not_le.mpr hlt) hunresolved⟩

/-- What an instance becomes: its overrides are resolved by themselves and the parameters of the embedding module, and it has a module. -/
structure UniquifiedInstance (net : Network) (nodes : Nodes) (parameters : List Parameter)
    (inst : Instance) (unique : Instance × UniquifiedModule) : Prop where
  overrides : List.Forall₂ (LinkedParameter net.references (unique.1.parameters ++ parameters) nodes)
    inst.parameters unique.1.parameters
  module : ∃ module, net.module inst.moduleIdentifier = some module

theorem UniquifiedInstance.grows {net : Network} {parameters : List Parameter} {inst : Instance}
    {unique : Instance × UniquifiedModule}
    (hinst : UniquifiedInstance net nodes parameters inst unique)
    (hgrows : Grows touched nodes nodes') : UniquifiedInstance net nodes' parameters inst unique :=
  ⟨hinst.overrides.imp fun _ _ h => h.grows hgrows, hinst.module⟩

/-- A uniquified module realises a scope, and so do the modules of its instances: an instance puts its overrides in front of the parameters of the module. -/
inductive Uniquified (net : Network) (nodes : Nodes) : Scope → Module → UniquifiedModule → Prop
  | mk {scope : Scope} {module : Module} {parameters : List Parameter}
      {identifiers : List VectorIdentifier} {instances : List (Instance × UniquifiedModule)}
      (hparameters : Realises net.references nodes scope parameters)
      (hidentifiers : List.Forall₂
        (VectorIdentifier.Related (Linked net.references parameters nodes))
        module.identifiers identifiers)
      (hinstances : List.Forall₂ (UniquifiedInstance net nodes parameters)
        module.instances instances)
      (hmodules : ∀ inst unique, (inst, unique) ∈ module.instances.zip instances →
        ∀ d, net.module inst.moduleIdentifier = some d →
          Uniquified net nodes (.inside d inst.parameters (.merged inst.parameters scope)) d
            unique.2) :
      Uniquified net nodes scope module (.mk parameters identifiers instances)

theorem Uniquified.grows {net : Network} {scope : Scope} {module : Module}
    {unique : UniquifiedModule} (huniquified : Uniquified net nodes scope module unique)
    (hgrows : Grows touched nodes nodes') : Uniquified net nodes' scope module unique := by
  induction huniquified with
  | mk hparameters hidentifiers hinstances _ ih =>
    refine .mk (hparameters.grows hgrows) ?_ ?_ ih
    · exact hidentifiers.imp fun _ _ h => h.imp fun _ _ hlinked => Linked.grows hlinked hgrows
    · exact hinstances.imp fun _ _ h => h.grows hgrows

/-- The modules that are not being cloned. -/
def Network.remaining (net : Network) (clonedModules : List String) : Finset String :=
  (net.modules.map (·.name)).toFinset \ clonedModules.toFinset

theorem instanceModule_meets {net : Network} {clonedModules : List String} {name : String} :
    Meets (fun _ => net.instanceModule clonedModules name) nodes fun d nodes' =>
      nodes' = nodes ∧ net.module name = some d ∧ d ∈ net.modules ∧
        (net.remaining (d.name :: clonedModules)).card < (net.remaining clonedModules).card := by
  unfold Network.instanceModule
  cases hmodule : net.module name with
  | none =>
    by_cases htop : net.top.name = name
    · simp only [if_pos htop]
      exact Yields.throw nofun
    · simp only [if_neg htop]
      exact Yields.throw nofun
  | some d =>
    by_cases hcloned : d.name ∈ clonedModules
    · simp only [if_pos hcloned]
      exact Yields.throw nofun
    · simp only [if_neg hcloned]
      have hmem : d ∈ net.modules := List.mem_of_find?_eq_some hmodule
      refine Yields.pure ⟨rfl, rfl, hmem, Finset.card_lt_card ?_⟩
      rw [Finset.ssubset_iff_of_subset]
      · refine ⟨d.name, ?_, ?_⟩
        · simp only [Network.remaining, Finset.mem_sdiff, List.mem_toFinset]
          exact ⟨List.mem_map_of_mem hmem, hcloned⟩
        · simp [Network.remaining]
      · intro other hother
        simp only [Network.remaining, Finset.mem_sdiff, List.mem_toFinset, List.mem_cons] at hother ⊢
        exact ⟨hother.1, fun h => hother.2 (.inr h)⟩

/-! ### Text -/

/-- The modules below a module, with the scopes that the code reads them in. -/
inductive ReadBelow (net : Network) : Scope → Module → Scope → Module → Prop
  | here (scope : Scope) (module : Module) : ReadBelow net scope module scope module
  | inInstance {scope scope' : Scope} {module d module' : Module} {inst : Instance}
      (hinst : inst ∈ module.instances) (hmodule : net.module inst.moduleIdentifier = some d)
      (hbelow : ReadBelow net (.inside d inst.parameters (.merged inst.parameters scope)) d scope'
        module') : ReadBelow net scope module scope' module'

/-- Each reference of an instance or a module is resolved with a definition whose text ends, with what is resolved by then. -/
structure TextsEnd (net : Network) (scope : Scope) (module : Module) : Prop where
  parameters : InOrder (TextEnds net.references scope) [] scope.references
  overrides : ∀ inst ∈ module.instances,
    InOrder (TextEnds net.references (.merged inst.parameters scope)) []
      (Scope.merged inst.parameters scope).references
  indices : ∀ node ∈ module.identifiers.flatMap (·.references), FullTextEnds net.references scope node

def TextsEndBelow (net : Network) (scope : Scope) (module : Module) : Prop :=
  ∀ scope' module', ReadBelow net scope module scope' module' → TextsEnd net scope' module'

def InstanceTextsEnd (net : Network) (scope : Scope) (inst : Instance) : Prop :=
  InOrder (TextEnds net.references (.merged inst.parameters scope)) []
      (Scope.merged inst.parameters scope).references ∧
    ∀ d, net.module inst.moduleIdentifier = some d →
      TextsEndBelow net (.inside d inst.parameters (.merged inst.parameters scope)) d

theorem textsEndBelow_iff {net : Network} {scope : Scope} {module : Module} :
    TextsEndBelow net scope module ↔ InOrder (TextEnds net.references scope) [] scope.references ∧
      (∀ inst ∈ module.instances, InstanceTextsEnd net scope inst) ∧
        ∀ node ∈ module.identifiers.flatMap (·.references), FullTextEnds net.references scope node := by
  constructor
  · intro hbelow
    have hself := hbelow scope module (.here scope module)
    refine ⟨hself.parameters, fun inst hinst => ⟨hself.overrides inst hinst, fun d hd => ?_⟩,
      hself.indices⟩
    exact fun scope' module' h => hbelow scope' module' (.inInstance hinst hd h)
  · rintro ⟨hparameters, hinstances, hindices⟩ scope' module' hbelow
    cases hbelow with
    | here => exact ⟨hparameters, fun inst hinst => (hinstances inst hinst).1, hindices⟩
    | inInstance hinst hmodule hbelow => exact (hinstances _ hinst).2 _ hmodule _ _ hbelow

/-! ### Uniquification -/

/-- What is required of the modules made for the instances of a module. -/
def UniquifiesModules (net : Network) (clonedModules : List String)
    (uniquify : Nat → List String → Module → List Parameter → Step Nodes Fault UniquifiedModule) :
    Prop :=
  ∀ (d : Module) (nodes : Nodes) (overrides overrides' outer' : List Parameter) (outer : Scope),
    d ∈ net.modules →
    (net.remaining (d.name :: clonedModules)).card < (net.remaining clonedModules).card →
    net.Intact nodes → Realises net.references nodes outer outer' →
    List.Forall₂ (LinkedParameter net.references outer' nodes) overrides overrides' →
    Decides (fun fuel => uniquify fuel (d.name :: clonedModules) d overrides') nodes
      (TextsEndBelow net (.inside d overrides outer) d)
      fun unique nodes' => Extends nodes nodes' ∧
        Uniquified net nodes' (.inside d overrides outer) d unique

theorem uniquifyInstance_decides {net : Network} {clonedModules : List String}
    {uniquify : Nat → List String → Module → List Parameter → Step Nodes Fault UniquifiedModule}
    (huniquify : UniquifiesModules net clonedModules uniquify) {scope : Scope}
    {parameters : List Parameter} {inst : Instance} (hintact : net.Intact nodes)
    (hrealises : Realises net.references nodes scope parameters)
    (hinst : ∀ p ∈ inst.parameters, Unresolved net.references nodes p.number)
    (hnodup : (Scope.merged inst.parameters scope).references.Nodup) :
    Decides (fun fuel => net.uniquifyInstance (uniquify fuel) fuel clonedModules parameters inst) nodes
      (InstanceTextsEnd net scope inst)
      fun unique nodes' => Extends nodes nodes' ∧
        UniquifiedInstance net nodes' parameters inst unique ∧
        ∀ d, net.module inst.moduleIdentifier = some d →
          Uniquified net nodes' (.inside d inst.parameters (.merged inst.parameters scope)) d
            unique.2 := by
  unfold Network.uniquifyInstance
  have hclone : Meets (fun fuel => inst.uniquifiedClone fuel) nodes fun inst' nodes' =>
      inst'.moduleIdentifier = inst.moduleIdentifier ∧
        Clones net.references nodes (Scope.merged inst.parameters scope).references
          (fun copies _ => List.Forall₂ (ClonedParameter copies) inst.parameters inst'.parameters)
          nodes' := by
    refine Yields.bind (cloneParameters_meets hinst) fun overrides' nodes₁ h₁ => ?_
    exact Yields.pure ⟨rfl, h₁⟩
  refine Meets.before hclone fun inst' nodes₁ h₁ => ?_
  obtain ⟨hidentifier, hextends, copies, hsources, hfresh, hcloned⟩ := h₁
  -- the references of the clone are new, so resolving them leaves the rest alone
  have hprovides : Provides net.references nodes₁ copies (.merged inst.parameters scope)
      (inst'.parameters ++ parameters) := provides_merged (hrealises.grows hextends) hcloned
  have hresolution := hfresh.resolution (nodes.length ≤ ·) (hsources ▸ hnodup)
    hfresh.start_le hprovides
  refine Decides.bind (resolveParameters_decides hresolution hcloned hfresh.at hnodup)
    fun _ nodes₂ hat => ?_
  have hgrows : Grows (nodes.length ≤ ·) nodes nodes₂ :=
    IsTrans.trans _ _ _ (hextends.mono fun _ _ h => h.elim) hat.resolves.grows
  have hlinked := hat.stage.linkedParameters hcloned fun node hnode => hnode
  refine Meets.before instanceModule_meets fun d nodes₃ h₃ => ?_
  obtain ⟨rfl, hmodule, hmem, hremaining⟩ := h₃
  rw [hidentifier] at hmodule
  have houter : Realises net.references nodes₃ (.merged inst.parameters scope)
      (inst'.parameters ++ parameters) := .merged (hrealises.grows hgrows) hlinked
  have hiff : TextsEndBelow net (.inside d inst.parameters (.merged inst.parameters scope)) d ↔
      ∀ d, net.module inst.moduleIdentifier = some d →
        TextsEndBelow net (.inside d inst.parameters (.merged inst.parameters scope)) d := by
    rw [hmodule]
    simp only [Option.some.injEq, forall_eq']
  refine ((huniquify d nodes₃ inst.parameters inst'.parameters _ _ hmem hremaining
    (hintact.grows hgrows) houter hlinked).bind fun newModule nodes₄ h₄ => ?_).of_iff
      ((iff_of_eq (and_true _)).trans hiff)
  refine Decides.pure trivial ⟨?_, ⟨?_, d, hmodule⟩, fun d' hd' => ?_⟩
  · have hnew : Extends nodes nodes₃ := hgrows.mono fun _ hlt hle => absurd hlt (Nat.not_lt.mpr hle)
    exact IsTrans.trans _ _ _ hnew h₄.1
  · exact hlinked.imp fun _ _ h => h.grows h₄.1
  · cases hmodule.symm.trans hd'
    exact h₄.2

theorem uniquifyInstances_decides {net : Network} {clonedModules : List String}
    {uniquify : Nat → List String → Module → List Parameter → Step Nodes Fault UniquifiedModule}
    (huniquify : UniquifiesModules net clonedModules uniquify) {scope : Scope} {module : Module}
    {parameters : List Parameter} (hintact : net.Intact nodes)
    (hrealises : Realises net.references nodes scope parameters)
    (hmodule : ∀ expr ∈ module.overrides, Unresolved net.references nodes expr)
    (hnodup : (module.overrides.flatMap (·.references)).Nodup) :
    Decides (fun fuel => module.instances.mapM
        (net.uniquifyInstance (uniquify fuel) fuel clonedModules parameters)) nodes
      (∀ inst ∈ module.instances, InstanceTextsEnd net scope inst)
      fun instances nodes' => Extends nodes nodes' ∧
        List.Forall₂ (fun inst unique => UniquifiedInstance net nodes' parameters inst unique ∧
          ∀ d, net.module inst.moduleIdentifier = some d →
            Uniquified net nodes' (.inside d inst.parameters (.merged inst.parameters scope)) d
              unique.2) module.instances instances := by
  refine Decides.mapM (R := Extends)
    (P := fun inst unique s => UniquifiedInstance net s parameters inst unique ∧
      ∀ d, net.module inst.moduleIdentifier = some d →
        Uniquified net s (.inside d inst.parameters (.merged inst.parameters scope)) d unique.2)
    (fun inst hinst s hs => ?_) fun inst unique s s' _ h hP => ?_
  · refine uniquifyInstance_decides huniquify (hintact.grows (hs.mono fun _ _ h => h.elim))
      (hrealises.grows hs) (fun p hp => ?_) ?_
    · have hmem : p.number ∈ module.overrides :=
        List.mem_flatMap.mpr ⟨inst, hinst, List.mem_map_of_mem hp⟩
      exact (hmodule _ hmem).extends hs
    · have hsublist : (inst.parameters.map (·.number)).Sublist module.overrides := by
        rw [Module.overrides, List.flatMap_def]
        exact List.sublist_flatten_of_mem (List.mem_map_of_mem hinst)
      have hreferences := (hsublist.flatMap (·.references)).nodup hnodup
      rwa [List.flatMap_map] at hreferences
  · exact ⟨hP.1.grows h, fun d hd => (hP.2 d hd).grows h⟩

theorem Uniquified.of_instances {net : Network} {scope : Scope} {module : Module}
    {parameters : List Parameter} {identifiers : List VectorIdentifier}
    {instances : List (Instance × UniquifiedModule)}
    (hparameters : Realises net.references nodes scope parameters)
    (hidentifiers : List.Forall₂ (VectorIdentifier.Related (Linked net.references parameters nodes))
      module.identifiers identifiers)
    (hinstances : List.Forall₂ (fun inst unique =>
      UniquifiedInstance net nodes parameters inst unique ∧
        ∀ d, net.module inst.moduleIdentifier = some d →
          Uniquified net nodes (.inside d inst.parameters (.merged inst.parameters scope)) d unique.2)
      module.instances instances) :
    Uniquified net nodes scope module (.mk parameters identifiers instances) := by
  refine .mk hparameters hidentifiers (hinstances.imp fun _ _ h => h.1) ?_
  intro inst unique hmem d hd
  exact (List.forall₂_zip hinstances hmem).2 d hd

theorem Network.module_separate (net : Network) {d : Module} (hd : d ∈ net.modules) :
    ((d.exprs ++ d.overrides).flatMap (·.references)).Nodup := by
  have hsublist : (d.exprs ++ d.overrides).Sublist
      (net.modules.flatMap fun m => m.exprs ++ m.overrides) := by
    rw [List.flatMap_def]
    exact List.sublist_flatten_of_mem (List.mem_map_of_mem (f := fun m => m.exprs ++ m.overrides) hd)
  have hall := hsublist.trans (List.sublist_append_right (net.top.exprs ++ net.top.overrides) _)
  exact (hall.flatMap (·.references)).nodup net.separate

/-- The parts of the expressions of a module. -/
structure Module.Separate (module : Module) : Prop where
  parameters : ∀ overrides scope, (Scope.inside module overrides scope).references.Nodup
  indices : (module.identifiers.flatMap (·.references)).Nodup

theorem Module.separate_of_nodup {module : Module}
    (hnodup : (module.exprs.flatMap (·.references)).Nodup) : module.Separate where
  parameters overrides scope := by
    have hsublist : ((module.ownParameters overrides).map (·.number)).Sublist module.exprs := by
      rw [Module.ownParameters, List.map_append]
      refine List.Sublist.trans ?_ (List.sublist_append_left _ _)
      exact List.Sublist.append (List.filter_sublist.map _) (List.Sublist.refl _)
    have hreferences := (hsublist.flatMap (·.references)).nodup hnodup
    rwa [List.flatMap_map] at hreferences
  indices := by
    rw [Module.exprs, List.flatMap_append, List.flatMap_assoc] at hnodup
    exact (List.nodup_append.mp hnodup).2.1

theorem uniquify_decides (net : Network) (clonedModules : List String) :
    UniquifiesModules net clonedModules net.uniquify := by
  induction hcard : (net.remaining clonedModules).card using Nat.strong_induction_on
    generalizing clonedModules with
  | _ card ih =>
    intro d nodes overrides overrides' outer' outer hd hremaining hintact houter hoverrides
    have hrest := ih _ (hcard ▸ hremaining) (d.name :: clonedModules) rfl
    have hexprs : ∀ expr ∈ d.exprs, Unresolved net.references nodes expr := fun expr hexpr =>
      hintact expr (List.mem_append_right _
        (List.mem_flatMap.mpr ⟨d, hd, List.mem_append_left _ hexpr⟩))
    have hnodup := net.module_separate hd
    rw [List.flatMap_append] at hnodup
    have hseparate := Module.separate_of_nodup (List.nodup_append.mp hnodup).1
    refine Decides.of_iff ?_ textsEndBelow_iff.symm
    apply Decides.succ
    simp only [Network.uniquify]
    refine Meets.before (uniquifyOrUpdateParameters_meets outer hoverrides hexprs)
      fun parameters nodes₁ h₁ => ?_
    obtain ⟨updated, localParameters, rfl, hextends₁, copies, hsources, hfresh, hupdated, hlocal⟩ := h₁
    have hprovides := provides_inside (houter.grows hextends₁) hupdated hlocal
    have hparameters := hseparate.parameters overrides outer
    have hresolution := hfresh.resolution (nodes.length ≤ ·) (hsources ▸ hparameters)
      hfresh.start_le hprovides
    refine Decides.bind (resolveJoined_decides hresolution hupdated hlocal hfresh.at hparameters)
      fun _ nodes₂ hat₂ => ?_
    have hgrows₂ : Grows (nodes.length ≤ ·) nodes nodes₂ :=
      IsTrans.trans _ _ _ (hextends₁.mono fun _ _ h => h.elim) hat₂.resolves.grows
    have hrealises₂ := Stage.realises (houter.grows hgrows₂)
      (hupdated.imp fun _ _ h => h.grows hat₂.resolves.grows) hlocal hat₂.stage
    -- the parsed expressions come before the clones, so they are still to be resolved
    have hintact₂ := hintact.grows hgrows₂
    refine Meets.before (cloneIdentifiers_meets fun i hi expr hexpr => hintact₂ expr ?_)
      fun identifiers nodes₃ h₃ => ?_
    · exact List.mem_append_right _ (List.mem_flatMap.mpr ⟨d, hd, List.mem_append_left _
        (List.mem_append_right _ (List.mem_flatMap.mpr ⟨i, hi, hexpr⟩))⟩)
    obtain ⟨hextends₃, copies', hsources', hfresh', hidentifiers⟩ := h₃
    have hintact₃ := hintact₂.grows (hextends₃.mono fun _ _ h => h.elim)
    refine Decides.bind (uniquifyInstances_decides hrest hintact₃ (hrealises₂.grows hextends₃)
      (fun expr hexpr => hintact₃ expr ?_) (List.nodup_append.mp hnodup).2.1) fun instances nodes₄ h₄ => ?_
    · exact List.mem_append_right _ (List.mem_flatMap.mpr ⟨d, hd, List.mem_append_right _ hexpr⟩)
    have hrealises₄ := (hrealises₂.grows hextends₃).grows h₄.1
    have hfresh₄ := hfresh'.extends h₄.1
    have hle := hgrows₂.length_le
    have hresolution' := hfresh₄.resolution_of_realises (nodes.length ≤ ·)
      (hsources' ▸ hseparate.indices)
      (fun node node' hcopy => Nat.le_trans hle (hfresh₄.start_le node node' hcopy)) hrealises₄
    refine ((resolveIdentifiers_decides hresolution' hidentifiers hfresh₄.at hseparate.indices).bind
      fun _ nodes₅ hat₅ => ?_).of_iff ((iff_of_eq (and_true _)).trans inOrder_const)
    have hgrows₅ : Grows (nodes.length ≤ ·) nodes nodes₅ :=
      IsTrans.trans _ _ _ hgrows₂ (IsTrans.trans _ _ _ (hextends₃.mono fun _ _ h => h.elim)
        (IsTrans.trans _ _ _ (h₄.1.mono fun _ _ h => h.elim) hat₅.resolves.grows))
    refine Decides.pure trivial ⟨hgrows₅.mono fun _ hlt h => absurd hlt (Nat.not_lt.mpr h), ?_⟩
    refine .of_instances (hrealises₄.grows hat₅.resolves.grows)
      (hat₅.stage.linkedIdentifiers hidentifiers fun node hnode => hnode) (h₄.2.imp fun _ _ h => ?_)
    exact ⟨h.1.grows hat₅.resolves.grows, fun d hd => (h.2 d hd).grows hat₅.resolves.grows⟩

/-! ### The top module -/

theorem Network.declared_unresolved (net : Network) {expr : IntegerExpr}
    (hexpr : expr ∈ net.top.exprs ++ net.top.overrides ++
      net.modules.flatMap (fun m => m.exprs ++ m.overrides)) :
    Unresolved net.references net.nodes expr := by
  intro node hnode
  have hlt := net.declared expr hexpr node hnode
  exact ⟨net.references[node], List.getElem?_eq_getElem hlt,
    by simp [Network.nodes, List.getElem?_eq_getElem hlt]⟩

def Network.topReference (net : Network) (node : Nat) : Prop :=
  node ∈ net.top.exprs.flatMap (·.references)

theorem Network.intact_of_grows (net : Network) (hgrows : Grows net.topReference net.nodes nodes) :
    net.Intact nodes := by
  intro other hother node hnode
  have hdeclared : other ∈ net.top.exprs ++ net.top.overrides ++
      net.modules.flatMap (fun m => m.exprs ++ m.overrides) := by
    rw [List.append_assoc]
    exact List.mem_append_right _ hother
  obtain ⟨name, hname, hunresolved⟩ := net.declared_unresolved hdeclared node hnode
  refine ⟨name, hname, hgrows.kept (fun hown => ?_) hunresolved⟩
  have hseparate := net.separate
  rw [List.append_assoc, List.flatMap_append] at hseparate
  exact (List.nodup_append.mp hseparate).2.2 node hown node
    (List.mem_flatMap.mpr ⟨other, hother, hnode⟩) rfl

/-- References that are their own copies. -/
def inPlace (references : List Nat) : List (Nat × Nat) :=
  references.map fun node => (node, node)

theorem mem_inPlace {references : List Nat} {node node' : Nat}
    (hmem : (node, node') ∈ inPlace references) : node' = node ∧ node ∈ references := by
  obtain ⟨other, hother, hsame⟩ := List.mem_map.mp hmem
  cases hsame
  exact ⟨rfl, hother⟩

theorem cloned_inPlace {references : List Nat} {expr : IntegerExpr}
    (hsubset : ∀ node ∈ expr.references, node ∈ references) : Cloned (inPlace references) expr expr :=
  alike_refl fun node hnode => List.mem_map.mpr ⟨node, hsubset node hnode, rfl⟩

theorem clonedParameters_inPlace {references : List Nat} {parameters : List Parameter}
    (hsubset : ∀ node ∈ parameters.flatMap (·.number.references), node ∈ references) :
    List.Forall₂ (ClonedParameter (inPlace references)) parameters parameters := by
  rw [List.forall₂_same]
  intro p hp
  exact ⟨rfl, cloned_inPlace fun node hnode => hsubset node (List.mem_flatMap.mpr ⟨p, hp, hnode⟩)⟩

theorem freshCopies_inPlace {references : List Nat} (hnodup : references.Nodup)
    (hunresolved : ∀ node ∈ references, ∃ name, names[node]? = some name ∧
      nodes[node]? = some ⟨some name, none⟩) : FreshCopies names 0 (inPlace references) nodes where
  start_le _ _ _ := Nat.zero_le _
  nodup := by
    rw [inPlace, List.map_map]
    exact (List.map_id references).symm ▸ hnodup
  unresolved node node' hmem := by
    obtain ⟨rfl, hreference⟩ := mem_inPlace hmem
    exact hunresolved _ hreference

theorem inPlace_sources (references : List Nat) : (inPlace references).map Prod.fst = references := by
  rw [inPlace, List.map_map]
  exact List.map_id references

theorem Module.references_eq (module : Module) (scope : Scope) :
    module.exprs.flatMap (·.references) = (Scope.inside module [] scope).references ++
      module.identifiers.flatMap (·.references) := by
  have hall : (module.parameters.filter fun p => (find p.name []).isNone) = module.parameters :=
    List.filter_eq_self.mpr fun _ _ => rfl
  rw [Module.exprs, List.flatMap_append, ← List.map_append, List.flatMap_map, List.flatMap_assoc,
    Scope.references, Module.ownParameters, hall]
  rfl

theorem Module.scopeReferences_eq (module : Module) :
    (Scope.inside module [] .empty).references =
      module.parameters.flatMap (·.ownReferences []) ++
        module.localParameters.flatMap (·.number.references) := by
  rw [ownReferences_flatMap, ← List.flatMap_append]
  rfl

theorem updatedParameters_inPlace {references : List Nat} {parameters : List Parameter}
    (hsubset : ∀ node ∈ parameters.flatMap (·.ownReferences []), node ∈ references) :
    List.Forall₂ (UpdatedParameter names [] [] (inPlace references) nodes) parameters parameters := by
  rw [List.forall₂_same]
  intro p hp
  refine ⟨rfl, nofun, fun _ => cloned_inPlace fun node hnode => ?_⟩
  exact hsubset node (List.mem_flatMap.mpr ⟨p, hp, hnode⟩)

theorem relatedIdentifiers_inPlace {indices : List Nat} {identifiers : List VectorIdentifier}
    (hsubset : ∀ node ∈ identifiers.flatMap (·.references), node ∈ indices) :
    List.Forall₂ (VectorIdentifier.Related (Cloned (inPlace indices))) identifiers identifiers := by
  rw [List.forall₂_same]
  intro i hi
  have hindex : ∀ x : Option IntegerExpr, (∀ expr, x = some expr → expr ∈ i.exprs) →
      Option.Rel (Cloned (inPlace indices)) x x := by
    intro x hx
    cases x with
    | none => exact .none
    | some expr => exact .some (cloned_inPlace fun node hnode => hsubset node (List.mem_flatMap.mpr
        ⟨i, hi, List.mem_flatMap.mpr ⟨expr, hx expr rfl, hnode⟩⟩))
  refine ⟨hindex _ fun expr h => List.mem_append_left _ ?_, hindex _ fun expr h =>
    List.mem_append_right _ ?_⟩
  · rw [h]
    exact List.mem_singleton.mpr rfl
  · rw [h]
    exact List.mem_singleton.mpr rfl

theorem Network.topReferences_nodup (net : Network) :
    ((Scope.inside net.top [] .empty).references ++
      net.top.identifiers.flatMap (·.references)).Nodup := by
  have hseparate := net.separate
  rw [List.append_assoc, List.flatMap_append] at hseparate
  exact net.top.references_eq .empty ▸ (List.nodup_append.mp hseparate).1

theorem Network.topOverrides_nodup (net : Network) :
    (net.top.overrides.flatMap (·.references)).Nodup := by
  have hseparate := net.separate
  rw [List.append_assoc, List.flatMap_append] at hseparate
  have hoverrides := (List.nodup_append.mp hseparate).2.1
  rw [List.flatMap_append] at hoverrides
  exact (List.nodup_append.mp hoverrides).1

theorem Network.topReferences_unresolved (net : Network) :
    ∀ node ∈ (Scope.inside net.top [] .empty).references ++
        net.top.identifiers.flatMap (·.references),
      ∃ name, net.references[node]? = some name ∧ net.nodes[node]? = some ⟨some name, none⟩ := by
  rw [← net.top.references_eq .empty]
  intro node hnode
  obtain ⟨expr, hexpr, hmem⟩ := List.mem_flatMap.mp hnode
  exact net.declared_unresolved (List.mem_append_left _ (List.mem_append_left _ hexpr)) node hmem

theorem Network.intact_of_resolves {net : Network} {nodes' : Nodes}
    (hparameters : Grows (· ∈ (Scope.inside net.top [] .empty).references) net.nodes nodes)
    (hindices : Grows (· ∈ net.top.identifiers.flatMap (·.references)) nodes nodes') :
    net.Intact nodes' := by
  refine net.intact_of_grows (IsTrans.trans _ nodes _ ?_ ?_)
  · refine hparameters.mono fun node _ hown => ?_
    rw [Network.topReference, net.top.references_eq .empty]
    exact List.mem_append_left _ hown
  · refine hindices.mono fun node _ hown => ?_
    rw [Network.topReference, net.top.references_eq .empty]
    exact List.mem_append_right _ hown

/-- Unless it throws, uniquification ends exactly when the texts end that it makes, and every module realises its scope. -/
theorem uniquifyAsTop_decides (net : Network) :
    Decides net.uniquifyAsTop net.nodes (TextsEndBelow net (.inside net.top [] .empty) net.top)
      fun unique nodes => Uniquified net nodes (.inside net.top [] .empty) net.top unique := by
  let references := (Scope.inside net.top [] .empty).references
  let indices := net.top.identifiers.flatMap (·.references)
  have hnodup : (references ++ indices).Nodup := net.topReferences_nodup
  have hparameters : references.Nodup := (List.nodup_append.mp hnodup).1
  have hindices : indices.Nodup := (List.nodup_append.mp hnodup).2.1
  have hsame : ∀ list : List Nat, ∀ node node', (node, node') ∈ inPlace list → node' ∈ list :=
    fun list node node' hcopy => (mem_inPlace hcopy).1 ▸ (mem_inPlace hcopy).2
  have hreferences : references = net.top.parameters.flatMap (·.ownReferences []) ++
      net.top.localParameters.flatMap (·.number.references) := net.top.scopeReferences_eq
  have hupdated : List.Forall₂ (UpdatedParameter net.references [] [] (inPlace references) net.nodes)
      net.top.parameters net.top.parameters :=
    updatedParameters_inPlace fun node hnode => hreferences ▸ List.mem_append_left _ hnode
  have hlocal : List.Forall₂ (ClonedParameter (inPlace references)) net.top.localParameters
      net.top.localParameters :=
    clonedParameters_inPlace fun node hnode => hreferences ▸ List.mem_append_right _ hnode
  have hidentifiers : List.Forall₂ (VectorIdentifier.Related (Cloned (inPlace indices)))
      net.top.identifiers net.top.identifiers := relatedIdentifiers_inPlace fun _ hnode => hnode
  have hfresh := freshCopies_inPlace hparameters fun node hnode =>
    net.topReferences_unresolved node (List.mem_append_left _ hnode)
  have hfresh' := freshCopies_inPlace hindices fun node hnode =>
    net.topReferences_unresolved node (List.mem_append_right _ hnode)
  have hresolution := hfresh.resolution (· ∈ references) ((inPlace_sources _).symm ▸ hparameters)
    (hsame references) (provides_inside .empty hupdated hlocal)
  refine Decides.of_iff ?_ textsEndBelow_iff.symm
  unfold Network.uniquifyAsTop
  refine (Decides.bind (resolveJoined_decides hresolution hupdated hlocal hfresh.at hparameters)
    (q := (∀ node ∈ indices, FullTextEnds net.references (.inside net.top [] .empty) node) ∧
      ∀ inst ∈ net.top.instances, InstanceTextsEnd net (.inside net.top [] .empty) inst)
    fun _ nodes₁ hat₁ => ?_).of_iff (and_congr_right fun _ => and_comm)
  have hrealises₁ := Stage.realises (.empty : Realises net.references _ .empty _)
    (hupdated.imp fun _ _ h => h.grows hat₁.resolves.grows) hlocal hat₁.stage
  -- the indices are still to be resolved
  have hfresh₁ := hfresh'.grows hat₁.resolves.grows fun node node' hcopy hown => by
    obtain ⟨rfl, hindex⟩ := mem_inPlace hcopy
    exact (List.nodup_append.mp hnodup).2.2 _ hown _ hindex rfl
  have hresolution' := hfresh₁.resolution_of_realises (· ∈ indices)
    ((inPlace_sources _).symm ▸ hindices) (hsame indices) hrealises₁
  refine Decides.bind ((resolveIdentifiers_decides hresolution' hidentifiers hfresh₁.at hindices).of_iff
    inOrder_const) fun _ nodes₂ hat₂ => ?_
  have hrealises₂ := hrealises₁.grows hat₂.resolves.grows
  have hintact : net.Intact nodes₂ :=
    Network.intact_of_resolves hat₁.resolves.grows hat₂.resolves.grows
  refine ((uniquifyInstances_decides (uniquify_decides net []) hintact hrealises₂
    (fun expr hexpr => hintact expr (List.mem_append_left _ hexpr))
    net.topOverrides_nodup).bind fun instances nodes₃ h₃ => ?_).of_iff
      (iff_of_eq (and_true _))
  refine Decides.pure trivial (.of_instances (hrealises₂.grows h₃.1) ?_ h₃.2)
  have hlinked := hat₂.stage.linkedIdentifiers hidentifiers fun node hnode => hnode
  exact hlinked.imp fun _ _ h => h.imp fun _ _ hindex => Linked.grows hindex h₃.1

end AST

end Mast
