import Mast.Readers.Cloning
import Mathlib.Data.List.Forall2

/-!
# Uniquified parameters

The parameters of a module are cloned, or replaced by the overrides of the instance, and then the references of the clones are resolved, one after another, with the parameters of the module. Afterwards these realise the scope of the module. While this goes on, each of them is a definition that is read in this scope, or one from outside.
-/

namespace Mast

namespace AST

open Program TermGraph

variable {names : List String} {nodes nodes' : Nodes} {touched : Nat → Prop}

/-! ### Identifiers -/

structure VectorIdentifier.Related (P : IntegerExpr → IntegerExpr → Prop)
    (identifier identifier' : VectorIdentifier) : Prop where
  left : Option.Rel P identifier.left identifier'.left
  right : Option.Rel P identifier.right identifier'.right

theorem relOption_imp {P Q : IntegerExpr → IntegerExpr → Prop} (himp : ∀ t e, P t e → Q t e)
    {x y : Option IntegerExpr} (hrel : Option.Rel P x y) : Option.Rel Q x y := by
  cases hrel with
  | none => exact .none
  | some h => exact .some (himp _ _ h)

theorem VectorIdentifier.Related.imp {P Q : IntegerExpr → IntegerExpr → Prop}
    {identifier identifier' : VectorIdentifier} (hrelated : identifier.Related P identifier')
    (himp : ∀ t e, P t e → Q t e) : identifier.Related Q identifier' :=
  ⟨relOption_imp himp hrelated.left, relOption_imp himp hrelated.right⟩

theorem lasts_relation {P : List (Nat × Nat) → IntegerExpr → IntegerExpr → Prop}
    (hP : ∀ expr expr', Lasts fun copies _ => P copies expr expr') (x y : Option IntegerExpr) :
    Lasts fun copies _ => Option.Rel (P copies) x y :=
  fun _ _ _ _ hsubset hextends hrel =>
    relOption_imp (fun expr expr' h => hP expr expr' _ _ _ _ hsubset hextends h) hrel

theorem lasts_clonedIdentifier (identifier identifier' : VectorIdentifier) :
    Lasts fun copies _ => identifier.Related (Cloned copies) identifier' :=
  fun _ _ _ _ hsubset _ hrelated => hrelated.imp fun _ _ h => Cloned.mono h hsubset

def VectorIdentifier.references (identifier : VectorIdentifier) : List Nat :=
  identifier.exprs.flatMap (·.references)

theorem VectorIdentifier.references_eq (identifier : VectorIdentifier) : identifier.references =
    identifier.left.toList.flatMap (·.references) ++ identifier.right.toList.flatMap (·.references) :=
  List.flatMap_append

theorem cloneIndex_meets {index : Option IntegerExpr}
    (hindex : ∀ expr, index = some expr → Unresolved names nodes expr) :
    Meets (fun fuel => cloneIndex fuel index) nodes fun index' nodes' =>
      Clones names nodes (index.toList.flatMap (·.references))
        (fun copies _ => Option.Rel (Cloned copies) index index') nodes' := by
  cases index with
  | none => exact Yields.pure (Clones.none .none)
  | some expr =>
    refine Yields.bind (cloneReferences_meets (hindex expr rfl)) fun expr' nodes₁ h₁ => ?_
    refine Yields.pure ?_
    rw [Option.toList_some, List.flatMap_singleton]
    exact h₁.imp fun _ _ h => .some h

theorem cloneIdentifier_meets {identifier : VectorIdentifier}
    (hidentifier : ∀ expr ∈ identifier.exprs, Unresolved names nodes expr) :
    Meets (fun fuel => identifier.uniquifiedClone fuel) nodes fun identifier' nodes' =>
      Clones names nodes identifier.references
        (fun copies _ => identifier.Related (Cloned copies) identifier') nodes' := by
  have hleft : ∀ expr, identifier.left = some expr → Unresolved names nodes expr :=
    fun expr h => hidentifier expr (List.mem_append_left _ (by rw [h]; exact List.mem_singleton.mpr rfl))
  have hright : ∀ expr, identifier.right = some expr → Unresolved names nodes expr :=
    fun expr h => hidentifier expr (List.mem_append_right _ (by rw [h]; exact List.mem_singleton.mpr rfl))
  refine Yields.bind (cloneIndex_meets hleft) fun left nodes₁ h₁ => ?_
  refine Yields.bind (cloneIndex_meets fun expr h => (hright expr h).extends h₁.extends')
    fun right nodes₂ h₂ => Yields.pure ?_
  rw [identifier.references_eq]
  have hboth := h₁.append h₂ (lasts_relation lasts_cloned _ _) (lasts_relation lasts_cloned _ _)
  exact hboth.imp fun _ _ h => ⟨h.1, h.2⟩

theorem cloneIdentifiers_meets {identifiers : List VectorIdentifier}
    (hidentifiers : ∀ i ∈ identifiers, ∀ expr ∈ i.exprs, Unresolved names nodes expr) :
    Meets (fun fuel => identifiers.mapM (·.uniquifiedClone fuel)) nodes fun identifiers' nodes' =>
      Clones names nodes (identifiers.flatMap (·.references))
        (fun copies _ => List.Forall₂ (VectorIdentifier.Related (Cloned copies)) identifiers identifiers')
        nodes' :=
  mapM_clones (P := fun i i' copies _ => VectorIdentifier.Related (Cloned copies) i i')
    lasts_clonedIdentifier fun i hi _ hextends => cloneIdentifier_meets fun expr hexpr =>
      (hidentifiers i hi expr hexpr).extends hextends

section Resolution

variable {parameters : List Parameter} {own : Nat → Prop} {copies : List (Nat × Nat)}
  {condition : List Nat → Nat → Prop} {start : Nodes} {resolved : List Nat}
  (hresolution : Resolution names parameters copies own condition start)

include hresolution

theorem resolveIndex_decides {index index' : Option IntegerExpr}
    (hcloned : Option.Rel (Cloned copies) index index')
    (hat : Resolution.At names parameters copies own start resolved nodes)
    (hnodup : (resolved ++ index.toList.flatMap (·.references)).Nodup) :
    Decides (fun fuel => resolveIndex fuel parameters index') nodes
      (InOrder condition resolved (index.toList.flatMap (·.references)))
      fun _ nodes' => Resolution.At names parameters copies own start
        (resolved ++ index.toList.flatMap (·.references)) nodes' := by
  cases hcloned with
  | none =>
    refine Decides.pure trivial ?_
    rw [Option.toList_none, List.flatMap_nil, List.append_nil]
    exact hat
  | some hcloned =>
    rw [Option.toList_some, List.flatMap_singleton] at hnodup ⊢
    exact hresolution.resolveReferences hcloned hat hnodup

theorem resolveIdentifier_decides {identifier identifier' : VectorIdentifier}
    (hcloned : identifier.Related (Cloned copies) identifier')
    (hat : Resolution.At names parameters copies own start resolved nodes)
    (hnodup : (resolved ++ identifier.references).Nodup) :
    Decides (fun fuel => identifier'.resolve fuel parameters) nodes
      (InOrder condition resolved identifier.references)
      fun _ nodes' =>
        Resolution.At names parameters copies own start (resolved ++ identifier.references) nodes' := by
  rw [identifier.references_eq, ← List.append_assoc] at hnodup
  rw [identifier.references_eq]
  refine ((resolveIndex_decides hresolution hcloned.left hat (List.nodup_append.mp hnodup).1).bind
    fun _ nodes₁ hat₁ => ?_).of_iff inOrder_append.symm
  refine (resolveIndex_decides hresolution hcloned.right hat₁ hnodup).mono fun _ nodes₂ hat₂ => ?_
  rw [List.append_assoc] at hat₂
  exact hat₂

theorem resolveIdentifiers_decides {identifiers identifiers' : List VectorIdentifier}
    (hcloned : List.Forall₂ (VectorIdentifier.Related (Cloned copies)) identifiers identifiers')
    (hat : Resolution.At names parameters copies own start resolved nodes)
    (hnodup : (resolved ++ identifiers.flatMap (·.references)).Nodup) :
    Decides (fun fuel => identifiers'.forM (·.resolve fuel parameters)) nodes
      (InOrder condition resolved (identifiers.flatMap (·.references)))
      fun _ nodes' => Resolution.At names parameters copies own start
        (resolved ++ identifiers.flatMap (·.references)) nodes' :=
  forM_resolves hcloned (fun _ _ h _ _ hat hnodup => resolveIdentifier_decides hresolution h hat hnodup)
    hat hnodup

theorem resolveParameters_decides {definitions definitions' : List Parameter}
    (hcloned : List.Forall₂ (ClonedParameter copies) definitions definitions')
    (hat : Resolution.At names parameters copies own start resolved nodes)
    (hnodup : (resolved ++ definitions.flatMap (·.number.references)).Nodup) :
    Decides (fun fuel => definitions'.forM (·.resolve fuel parameters)) nodes
      (InOrder condition resolved (definitions.flatMap (·.number.references)))
      fun _ nodes' => Resolution.At names parameters copies own start
        (resolved ++ definitions.flatMap (·.number.references)) nodes' :=
  forM_resolves hcloned (fun _ _ h _ _ hat hnodup => hresolution.resolveReferences h.cloned hat hnodup)
    hat hnodup

end Resolution

theorem FreshCopies.at {parameters : List Parameter} {own : Nat → Prop} {start : Nat}
    {copies : List (Nat × Nat)} (hfresh : FreshCopies names start copies nodes) :
    Resolution.At names parameters copies own nodes [] nodes where
  resolves := refl _
  stage := ⟨fun node node' hmem _ => hfresh.unresolved node node' hmem,
    fun _ _ _ h => absurd h List.not_mem_nil⟩

theorem Stage.linkedParameters {parameters definitions definitions' : List Parameter}
    {copies : List (Nat × Nat)} {resolved : List Nat}
    (hstage : Stage names parameters copies resolved nodes)
    (hcloned : List.Forall₂ (ClonedParameter copies) definitions definitions')
    (hall : ∀ node ∈ definitions.flatMap (·.number.references), node ∈ resolved) :
    List.Forall₂ (LinkedParameter names parameters nodes) definitions definitions' := by
  induction hcloned with
  | nil => exact .nil
  | @cons p p' rest rest' hp _ ih =>
    rw [List.flatMap_cons] at hall
    refine .cons ⟨hp.name_eq, hstage.linked hp.cloned fun node hnode => ?_⟩ (ih fun node hnode => ?_)
    · exact hall node (List.mem_append_left _ hnode)
    · exact hall node (List.mem_append_right _ hnode)

theorem Stage.linkedIdentifiers {parameters : List Parameter}
    {identifiers identifiers' : List VectorIdentifier} {copies : List (Nat × Nat)} {resolved : List Nat}
    (hstage : Stage names parameters copies resolved nodes)
    (hcloned : List.Forall₂ (VectorIdentifier.Related (Cloned copies)) identifiers identifiers')
    (hall : ∀ node ∈ identifiers.flatMap (·.references), node ∈ resolved) :
    List.Forall₂ (VectorIdentifier.Related (Linked names parameters nodes)) identifiers
      identifiers' := by
  have hindex : ∀ {x y : Option IntegerExpr}, Option.Rel (Cloned copies) x y →
      (∀ node ∈ x.toList.flatMap (·.references), node ∈ resolved) →
        Option.Rel (Linked names parameters nodes) x y := by
    intro x y hrel hall
    cases hrel with
    | none => exact .none
    | some hcloned =>
      rw [Option.toList_some, List.flatMap_singleton] at hall
      exact .some (hstage.linked hcloned hall)
  induction hcloned with
  | nil => exact .nil
  | @cons i i' rest rest' hi _ ih =>
    rw [List.flatMap_cons, i.references_eq, List.append_assoc] at hall
    refine .cons ⟨hindex hi.left fun node hnode => ?_, hindex hi.right fun node hnode => ?_⟩
      (ih fun node hnode => ?_)
    · exact hall node (List.mem_append_left _ hnode)
    · exact hall node (List.mem_append_right _ (List.mem_append_left _ hnode))
    · exact hall node (List.mem_append_right _ (List.mem_append_right _ hnode))

/-! ### The parameters of a module -/

/-- A parameter of a module and its copy: the override it has, already resolved, or a clone. -/
structure UpdatedParameter (names : List String) (overrides outer : List Parameter)
    (copies : List (Nat × Nat)) (nodes : Nodes) (parameter parameter' : Parameter) : Prop where
  name_eq : parameter'.name = parameter.name
  overridden : ∀ override, find parameter.name overrides = some override →
    Linked names outer nodes override.number parameter'.number
  cloned : find parameter.name overrides = none → Cloned copies parameter.number parameter'.number

theorem UpdatedParameter.grows {overrides outer : List Parameter} {copies : List (Nat × Nat)}
    {p p' : Parameter} (hupdated : UpdatedParameter names overrides outer copies nodes p p')
    (hgrows : Grows touched nodes nodes') : UpdatedParameter names overrides outer copies nodes' p p' where
  name_eq := hupdated.name_eq
  overridden override h := (hupdated.overridden override h).grows hgrows
  cloned := hupdated.cloned

theorem lasts_updatedParameter (overrides outer : List Parameter) (p p' : Parameter) :
    Lasts fun copies nodes => UpdatedParameter names overrides outer copies nodes p p' := by
  intro copies copies' nodes nodes' hsubset hextends hupdated
  have hgrown := hupdated.grows hextends
  exact ⟨hgrown.name_eq, hgrown.overridden, fun hnone => (hgrown.cloned hnone).mono hsubset⟩

theorem Linked.not_hasParameterRef {parameters : List Parameter} {expr expr' : IntegerExpr}
    (hlinked : Linked names parameters nodes expr expr') : expr'.hasParameterRef nodes = false := by
  induction hlinked with
  | integerLiteral value => rfl
  | integerBinaryExpr kind _ _ ihleft ihright => exact Bool.or_eq_false_iff.mpr ⟨ihleft, ihright⟩
  | parenthesizedExpr _ ih => exact ih
  | integerExprRef hnode =>
    obtain ⟨name, parameter, -, -, hresolved⟩ := hnode
    simp [IntegerExpr.hasParameterRef, hresolved]

/-- The references of a parameter, unless it is overridden. -/
def Parameter.ownReferences (overrides : List Parameter) (parameter : Parameter) : List Nat :=
  if (find parameter.name overrides).isNone then parameter.number.references else []

theorem ownReferences_flatMap (overrides parameters : List Parameter) :
    parameters.flatMap (·.ownReferences overrides) =
      (parameters.filter fun p => (find p.name overrides).isNone).flatMap (·.number.references) := by
  induction parameters with
  | nil => rfl
  | cons p rest ih =>
    rw [List.flatMap_cons, ih, List.filter_cons, Parameter.ownReferences]
    by_cases hnone : (find p.name overrides).isNone
    · rw [if_pos hnone, if_pos hnone, List.flatMap_cons]
    · rw [if_neg hnone, if_neg hnone, List.nil_append]

section Overrides

variable {overrides overrides' outer : List Parameter}

theorem uniquifyOrUpdate_meets {parameter : Parameter}
    (hoverrides : List.Forall₂ (LinkedParameter names outer nodes) overrides overrides')
    (hparameter : Unresolved names nodes parameter.number) :
    Meets (fun fuel => parameter.uniquifyOrUpdate fuel overrides') nodes fun parameter' nodes' =>
      Clones names nodes (parameter.ownReferences overrides) (fun copies nodes =>
        UpdatedParameter names overrides outer copies nodes parameter parameter') nodes' := by
  unfold Parameter.uniquifyOrUpdate Parameter.ownReferences
  rcases find_forall₂ (fun _ _ h => h.name_eq) hoverrides parameter.name with
    ⟨hnone, hnone'⟩ | ⟨q, q', hq, hq', hlinked⟩
  · rw [hnone', Option.getD_none, hnone]
    refine (cloneParameter_meets hparameter).mono (fun p' nodes₁ h₁ => ?_) fun _ h => h
    refine h₁.imp fun _ _ hcloned => ⟨hcloned.name_eq, fun override h => ?_, fun _ => hcloned.cloned⟩
    cases hnone.symm.trans h
  · rw [hq', Option.getD_some, hq]
    have hrefs := hlinked.linked.not_hasParameterRef
    refine Yields.next (a := q'.number) ?_ (Yields.pure (Clones.none ?_))
    · apply Yields.get
      rw [hrefs]
      exact Yields.pure ⟨rfl, rfl⟩
    · refine ⟨find_name hq', fun override h => ?_, fun h => ?_⟩
      · cases hq.symm.trans h
        exact hlinked.linked
      · cases hq.symm.trans h

theorem uniquifyOrUpdateParameters_meets {module : Module} (scope : Scope)
    (hoverrides : List.Forall₂ (LinkedParameter names outer nodes) overrides overrides')
    (hmodule : ∀ expr ∈ module.exprs, Unresolved names nodes expr) :
    Meets (fun fuel => module.uniquifyOrUpdateParameters fuel overrides') nodes
      fun parameters nodes' => ∃ updated localParameters, parameters = updated ++ localParameters ∧
        Clones names nodes (Scope.inside module overrides scope).references (fun copies nodes =>
          List.Forall₂ (UpdatedParameter names overrides outer copies nodes) module.parameters updated ∧
            List.Forall₂ (ClonedParameter copies) module.localParameters localParameters) nodes' := by
  have hparameters : ∀ p ∈ module.parameters, Unresolved names nodes p.number := fun p hp =>
    hmodule _ (List.mem_append_left _ (List.mem_append_left _ (List.mem_map_of_mem hp)))
  have hlocal : ∀ p ∈ module.localParameters, Unresolved names nodes p.number := fun p hp =>
    hmodule _ (List.mem_append_left _ (List.mem_append_right _ (List.mem_map_of_mem hp)))
  have hupdate : Meets (fun fuel => module.parameters.mapM (·.uniquifyOrUpdate fuel overrides')) nodes
      fun updated nodes' => Clones names nodes (module.parameters.flatMap (·.ownReferences overrides))
        (fun copies nodes => List.Forall₂ (UpdatedParameter names overrides outer copies nodes)
          module.parameters updated) nodes' := by
    refine mapM_clones
      (P := fun p p' copies nodes => UpdatedParameter names overrides outer copies nodes p p')
      (lasts_updatedParameter overrides outer) fun p hp nodes' hextends => ?_
    exact uniquifyOrUpdate_meets (hoverrides.imp fun _ _ h => h.grows hextends)
      ((hparameters p hp).extends hextends)
  refine Yields.bind hupdate fun updated nodes₁ h₁ => ?_
  refine Yields.bind (cloneParameters_meets fun p hp => (hlocal p hp).extends h₁.extends')
    fun localParameters nodes₂ h₂ => Yields.pure ⟨updated, localParameters, rfl, ?_⟩
  rw [Scope.references, Module.ownParameters, List.flatMap_append, ← ownReferences_flatMap]
  exact h₁.append h₂
    (lasts_forall₂ (P := fun p p' copies nodes => UpdatedParameter names overrides outer copies nodes p p')
      (lasts_updatedParameter overrides outer) _ _)
    (lasts_forall₂ (P := fun p p' copies _ => ClonedParameter copies p p') lasts_clonedParameter _ _)

section Joined

variable {parameters : List Parameter} {own : Nat → Prop} {copies : List (Nat × Nat)}
  {condition : List Nat → Nat → Prop} {start : Nodes} {resolved : List Nat}

theorem resolveUpdated_decides (hresolution : Resolution names parameters copies own condition start)
    {definitions definitions' : List Parameter}
    (hupdated : List.Forall₂ (UpdatedParameter names overrides outer copies start)
      definitions definitions')
    (hat : Resolution.At names parameters copies own start resolved nodes)
    (hnodup : (resolved ++ definitions.flatMap (·.ownReferences overrides)).Nodup) :
    Decides (fun fuel => definitions'.forM (·.resolve fuel parameters)) nodes
      (InOrder condition resolved (definitions.flatMap (·.ownReferences overrides)))
      fun _ nodes' => Resolution.At names parameters copies own start
        (resolved ++ definitions.flatMap (·.ownReferences overrides)) nodes' := by
  refine forM_resolves hupdated (fun p p' hp resolved nodes hat hnodup => ?_) hat hnodup
  unfold Parameter.ownReferences at hnodup ⊢
  cases hfind : find p.name overrides with
  | none =>
    rw [hfind] at hnodup
    exact hresolution.resolveReferences (hp.cloned hfind) hat hnodup
  | some override =>
    have hlinked := (hp.overridden override hfind).grows hat.resolves.grows
    apply Decides.get
    rw [hlinked.not_hasParameterRef]
    refine Decides.pure trivial ?_
    simp only [Option.isNone_some, Bool.false_eq_true, if_false, List.append_nil]
    exact hat

theorem resolveJoined_decides (hresolution : Resolution names parameters copies own condition start)
    {module : Module} {scope : Scope} {updated localParameters : List Parameter}
    (hupdated : List.Forall₂ (UpdatedParameter names overrides outer copies start)
      module.parameters updated)
    (hlocal : List.Forall₂ (ClonedParameter copies) module.localParameters localParameters)
    (hat : Resolution.At names parameters copies own start [] nodes)
    (hnodup : (Scope.inside module overrides scope).references.Nodup) :
    Decides (fun fuel => (updated ++ localParameters).forM (·.resolve fuel parameters)) nodes
      (InOrder condition [] (Scope.inside module overrides scope).references)
      fun _ nodes' => Resolution.At names parameters copies own start
        (Scope.inside module overrides scope).references nodes' := by
  rw [Scope.references, Module.ownParameters, List.flatMap_append, ← ownReferences_flatMap] at hnodup ⊢
  simp only [List.forM_eq_forM, List.forM_append]
  have hfirst := resolveUpdated_decides hresolution hupdated hat
    (by rw [List.nil_append]; exact (List.nodup_append.mp hnodup).1)
  refine (hfirst.bind fun _ nodes₁ hat₁ => ?_).of_iff inOrder_append.symm
  rw [List.nil_append] at hat₁ ⊢
  exact resolveParameters_decides hresolution hlocal hat₁ hnodup

end Joined

/-- The parameters of a module, once their references are resolved. -/
theorem Stage.realises {module : Module} {outer' updated localParameters : List Parameter}
    {copies : List (Nat × Nat)} {scope : Scope} (houter : Realises names nodes scope outer')
    (hupdated : List.Forall₂ (UpdatedParameter names overrides outer' copies nodes)
      module.parameters updated)
    (hlocal : List.Forall₂ (ClonedParameter copies) module.localParameters localParameters)
    (hstage : Stage names (updated ++ localParameters) copies
      (Scope.inside module overrides scope).references nodes) :
    Realises names nodes (.inside module overrides scope) (updated ++ localParameters) := by
  have hreferences : (Scope.inside module overrides scope).references =
      module.parameters.flatMap (·.ownReferences overrides) ++
        module.localParameters.flatMap (·.number.references) := by
    rw [ownReferences_flatMap, ← List.flatMap_append]
    rfl
  refine .inside houter ?_ (hstage.linkedParameters hlocal fun node hnode => ?_)
  · rw [List.forall₂_iff_get] at hupdated ⊢
    refine ⟨hupdated.1, fun i hi hi' => ?_⟩
    have hp := hupdated.2 i hi hi'
    refine ⟨hp.name_eq, hp.overridden, fun hnone => hstage.linked (hp.cloned hnone) ?_⟩
    intro node hnode
    rw [hreferences]
    refine List.mem_append_left _ (List.mem_flatMap.mpr ⟨_, List.get_mem _ ⟨i, hi⟩, ?_⟩)
    rw [Parameter.ownReferences, hnone]
    exact hnode
  · rw [hreferences]
    exact List.mem_append_right _ hnode

end Overrides

/-! ### The parameters while they are resolved -/

section Provided

variable {copies : List (Nat × Nat)} {parameters : List Parameter} {scope : Scope}

theorem Provides.grows (hprovides : Provides names nodes copies scope parameters)
    (hgrows : Grows touched nodes nodes') : Provides names nodes' copies scope parameters := by
  intro name
  refine (hprovides name).imp_right ?_
  rintro ⟨scope', expr, p, hdefinition, hp, hself | ⟨hdepth, ps, hrealises, hlinked⟩⟩
  · exact ⟨scope', expr, p, hdefinition, hp, .inl hself⟩
  · exact ⟨scope', expr, p, hdefinition, hp,
      .inr ⟨hdepth, ps, hrealises.grows hgrows, hlinked.grows hgrows⟩⟩

theorem provides_merged {overrides overrides' outer' : List Parameter} {outer : Scope}
    (houter : Realises names nodes outer outer')
    (hcloned : List.Forall₂ (ClonedParameter copies) overrides overrides') :
    Provides names nodes copies (.merged overrides outer) (overrides' ++ outer') := by
  intro name
  rw [find_append]
  simp only [Scope.definition]
  rcases find_forall₂ (fun _ _ h => h.name_eq) hcloned name with
    ⟨hnone, hnone'⟩ | ⟨p, p', hp, hp', hboth⟩
  · rw [hnone, hnone', Option.none_or]
    refine (houter.definition name).imp_right ?_
    rintro ⟨scope', ps, expr, p, hdefinition, hp, hrest⟩
    refine ⟨scope', expr, p, hdefinition, hp, .inr ⟨?_, ps, hrest⟩⟩
    exact Nat.lt_succ_of_le (Scope.definition_depth hdefinition)
  · rw [hp, hp', Option.some_or]
    exact .inr ⟨_, _, _, rfl, rfl, .inl ⟨rfl, hboth.cloned⟩⟩

theorem provides_inside {module : Module} {overrides outer' updated localParameters : List Parameter}
    {outer : Scope} (houter : Realises names nodes outer outer')
    (hupdated : List.Forall₂ (UpdatedParameter names overrides outer' copies nodes)
      module.parameters updated)
    (hlocal : List.Forall₂ (ClonedParameter copies) module.localParameters localParameters) :
    Provides names nodes copies (.inside module overrides outer) (updated ++ localParameters) := by
  intro name
  rw [find_append]
  simp only [Scope.definition]
  rcases find_forall₂ (fun _ _ h => h.name_eq) hupdated name with
    ⟨hnone, hnone'⟩ | ⟨p, p', hp, hp', hboth⟩
  · rw [hnone, hnone', Option.none_or]
    rcases find_forall₂ (fun _ _ h => h.name_eq) hlocal name with
      ⟨hnone, hnone'⟩ | ⟨p, p', hp, hp', hboth⟩
    · exact .inl ⟨by rw [hnone]; rfl, hnone'⟩
    · exact .inr ⟨_, _, _, by rw [hp]; rfl, hp', .inl ⟨rfl, hboth.cloned⟩⟩
  · rw [hp, hp', Option.some_or]
    have hname : p.name = name := find_name hp
    cases hoverride : find name overrides with
    | some override =>
      have hoverridden := hboth.overridden override (hname ▸ hoverride)
      exact .inr ⟨_, _, _, rfl, rfl, .inr ⟨Nat.lt_succ_self _, outer', houter, hoverridden⟩⟩
    | none => exact .inr ⟨_, _, _, rfl, rfl, .inl ⟨rfl, hboth.cloned (hname ▸ hoverride)⟩⟩

theorem copies_separate {start : Nat} (hfresh : FreshCopies names start copies nodes)
    (hsources : (copies.map Prod.fst).Nodup) {node node' other other' : Nat}
    (hcopy : (node, node') ∈ copies) (hcopy' : (other, other') ∈ copies) :
    node = other ↔ node' = other' := by
  constructor
  · intro hsame
    exact (Prod.mk.inj (List.inj_on_of_nodup_map hsources hcopy hcopy' hsame)).2
  · intro hsame
    exact (Prod.mk.inj (List.inj_on_of_nodup_map hfresh.nodup hcopy hcopy' hsame)).1

theorem FreshCopies.resolution {start : Nat} (own : Nat → Prop)
    (hfresh : FreshCopies names start copies nodes) (hsources : (copies.map Prod.fst).Nodup)
    (howned : ∀ node node', (node, node') ∈ copies → own node')
    (hprovides : Provides names nodes copies scope parameters) :
    Resolution names parameters copies own (TextEnds names scope) nodes where
  separate _ _ _ _ hcopy hcopy' := copies_separate hfresh hsources hcopy hcopy'
  owned := howned
  text _ _ hresolves hstage _ _ _ hname hfind :=
    (hprovides.grows hresolves.grows).text_iff hstage hname hfind

/-- The text of a definition ends when everything in the scope is resolved. -/
def FullTextEnds (names : List String) (scope : Scope) (node : Nat) : Prop :=
  ∀ definition, names[node]?.bind scope.definition = some definition →
    Unfolds (reading names) definition

/-- References that are resolved with parameters that are resolved themselves. -/
theorem FreshCopies.resolution_of_realises {start : Nat} (own : Nat → Prop)
    (hfresh : FreshCopies names start copies nodes) (hsources : (copies.map Prod.fst).Nodup)
    (howned : ∀ node node', (node, node') ∈ copies → own node')
    (hrealises : Realises names nodes scope parameters) :
    Resolution names parameters copies own (fun _ => FullTextEnds names scope) nodes where
  separate _ _ _ _ hcopy hcopy' := copies_separate hfresh hsources hcopy hcopy'
  owned := howned
  text _ _ hresolves _ _ _ _ hname hfind := (hrealises.grows hresolves.grows).text_iff hname hfind

end Provided

end AST

end Mast
