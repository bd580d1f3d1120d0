import Mast.Readers.UniquifiedNetwork

/-!
# The scopes of parameter references

A reference inside a module is to denote the override of the instance, or else the default, and a reference in an override is to denote the parameter of the embedding module. The code reads the overrides of an instance with the overrides themselves in front, and follows numeric references without looking for circles, when it evaluates them and when it makes the text of a parameter. So it is right exactly when no definition is circular, no override is captured by another one of the same instance that means something else, and no reference is resolved with a parameter whose text is circular by then.
-/

namespace Mast

namespace AST

open Fuel Program TermGraph

variable {net : Network} {names : List String} {nodes : Nodes}

/-! ### What is to hold -/

/-- Every expression of a uniquified module and of those below it, with the expression it is made from and the scope that one is to be read in. -/
inductive Site (net : Network) : Scope → Module → UniquifiedModule →
    Scope → IntegerExpr → IntegerExpr → Prop
  | parameter {scope scope' : Scope} {module : Module} {unique : UniquifiedModule} {name : String}
      {expr : IntegerExpr} {parameter : Parameter}
      (hdefinition : scope.definition name = some (scope', expr))
      (hfind : find name unique.parameters = some parameter) :
      Site net scope module unique scope' expr parameter.number
  | leftIndex {scope : Scope} {module : Module} {unique : UniquifiedModule}
      {identifier identifier' : VectorIdentifier} {expr expr' : IntegerExpr}
      (hidentifier : (identifier, identifier') ∈ module.identifiers.zip unique.identifiers)
      (hleft : identifier.left = some expr) (hleft' : identifier'.left = some expr') :
      Site net scope module unique scope expr expr'
  | rightIndex {scope : Scope} {module : Module} {unique : UniquifiedModule}
      {identifier identifier' : VectorIdentifier} {expr expr' : IntegerExpr}
      (hidentifier : (identifier, identifier') ∈ module.identifiers.zip unique.identifiers)
      (hright : identifier.right = some expr) (hright' : identifier'.right = some expr') :
      Site net scope module unique scope expr expr'
  | override {scope : Scope} {module : Module} {unique : UniquifiedModule} {inst : Instance}
      {unique' : Instance × UniquifiedModule} {parameter parameter' : Parameter}
      (hinst : (inst, unique') ∈ module.instances.zip unique.instances)
      (hparameter : (parameter, parameter') ∈ inst.parameters.zip unique'.1.parameters) :
      Site net scope module unique scope parameter.number parameter'.number
  | inInstance {scope scope' : Scope} {module d : Module} {unique : UniquifiedModule} {inst : Instance}
      {unique' : Instance × UniquifiedModule} {expr expr' : IntegerExpr}
      (hinst : (inst, unique') ∈ module.instances.zip unique.instances)
      (hmodule : net.module inst.moduleIdentifier = some d)
      (hsite : Site net (.inside d inst.parameters scope) d unique'.2 scope' expr expr') :
      Site net scope module unique scope' expr expr'
  | leftOperand {scope scope' : Scope} {module : Module} {unique : UniquifiedModule}
      {kind kind' : Operator} {left right left' right' : IntegerExpr}
      (hsite : Site net scope module unique scope' (.integerBinaryExpr kind left right)
        (.integerBinaryExpr kind' left' right')) :
      Site net scope module unique scope' left left'
  | rightOperand {scope scope' : Scope} {module : Module} {unique : UniquifiedModule}
      {kind kind' : Operator} {left right left' right' : IntegerExpr}
      (hsite : Site net scope module unique scope' (.integerBinaryExpr kind left right)
        (.integerBinaryExpr kind' left' right')) :
      Site net scope module unique scope' right right'
  | operand {scope scope' : Scope} {module : Module} {unique : UniquifiedModule}
      {operand operand' : IntegerExpr}
      (hsite : Site net scope module unique scope' (.parenthesizedExpr operand)
        (.parenthesizedExpr operand')) :
      Site net scope module unique scope' operand operand'

/-- Evaluation ends, with the value that substitution gives if there is one, and otherwise it throws. -/
def EvaluatesAs (names : List String) (nodes : Nodes) (scope : Scope) (expr expr' : IntegerExpr) :
    Prop :=
  ∃ result, Ends (fun fuel => (expr'.evaluate nodes fuel).run) result ∧
    ∀ v, result = .ok v ↔ Denotes (reading names) (scope, expr) v

def ReferencesResolveRight (net : Network) (unique : UniquifiedModule) (nodes : Nodes) : Prop :=
  ∀ scope expr expr', Site net (.inside net.top [] .empty) net.top unique scope expr expr' →
    EvaluatesAs net.references nodes scope expr expr'

/-! ### When it does -/

/-- The modules that uniquification comes to, with their scopes. -/
inductive Reached (net : Network) : Scope → Module → Prop
  | top : Reached net (.inside net.top [] .empty) net.top
  | inInstance {scope : Scope} {module d : Module} {inst : Instance} (hreached : Reached net scope module)
      (hinst : inst ∈ module.instances) (hmodule : net.module inst.moduleIdentifier = some d) :
      Reached net (.inside d inst.parameters scope) d

/-- No definition leads back to itself, and an override may only refer to a name that its own instance overrides when that override and the parameter of the embedding module have the same value. -/
structure Network.NoCircleNorCapture (net : Network) : Prop where
  noCircle : ∀ scope module, Reached net scope module → ∀ name definition,
    scope.definition name = some definition → Settles (reading net.references) definition
  noCapture : ∀ scope module, Reached net scope module → ∀ inst ∈ module.instances,
    ∀ parameter ∈ inst.parameters, ∀ node ∈ parameter.number.references, ∀ name,
      net.references[node]? = some name → (find name inst.parameters).isSome →
      Agree (reading net.references) (reading net.references)
        (.merged inst.parameters scope, .integerExprRef node) (scope, .integerExprRef node)

/-! ### Expressions by their references -/

/-- The references of an expression agree in two scopes. -/
def ReferencesAgree (names : List String) (a b : Scope) (expr : IntegerExpr) : Prop :=
  ∀ node ∈ expr.references, Agree (reading names) (reading names)
    (a, .integerExprRef node) (b, .integerExprRef node)

theorem ReferencesAgree.expr {a b : Scope} {expr : IntegerExpr}
    (hagree : ReferencesAgree names a b expr) :
    Agree (reading names) (reading names) (a, expr) (b, expr) := by
  induction expr with
  | integerLiteral value => exact Agree.of_match (.value value)
  | integerBinaryExpr kind left right ihleft ihright =>
    have hleft := ihleft fun node hnode => hagree node (List.mem_append_left _ hnode)
    have hright := ihright fun node hnode => hagree node (List.mem_append_right _ hnode)
    exact Agree.of_match (.apply _ hleft hright)
  | parenthesizedExpr operand ih => exact Agree.of_match (.link (ih hagree))
  | integerExprRef node => exact hagree node (List.mem_singleton.mpr rfl)

def DefinitionsSettle (names : List String) (scope : Scope) : Prop :=
  ∀ name definition, scope.definition name = some definition → Settles (reading names) definition

theorem DefinitionsSettle.expr {scope : Scope} (hsettles : DefinitionsSettle names scope)
    (expr : IntegerExpr) : Settles (reading names) (scope, expr) := by
  induction expr with
  | integerLiteral value => exact .value rfl
  | integerBinaryExpr kind left right ihleft ihright => exact .apply rfl ihleft fun _ _ => ihright
  | parenthesizedExpr operand ih => exact .link rfl ih
  | integerExprRef node =>
    cases hdefinition : names[node]?.bind scope.definition with
    | none => exact .fails (by simp only [reading, hdefinition])
    | some definition =>
      obtain ⟨name, -, hname⟩ := Option.bind_eq_some_iff.mp hdefinition
      exact .link (by simp only [reading, hdefinition]) (hsettles name definition hname)

/-- What evaluation does, for an expression in memory that agrees with a reading. -/
theorem evaluatesAs_iff {a b : Scope} {expr expr' : IntegerExpr}
    (hmemory : Agree (reading names) (inMemory nodes) (a, expr) expr') :
    EvaluatesAs names nodes b expr expr' ↔ Settles (reading names) (a, expr) ∧
      ∀ v, Denotes (reading names) (a, expr) v ↔ Denotes (reading names) (b, expr) v := by
  unfold EvaluatesAs
  rw [evaluates_iff, hmemory.settles_iff]
  simp only [hmemory.denotes_iff]

/-! ### The scope of the code and the scope of the claim -/

/-- A scope as the code makes it, and as it is to be; the overrides of each instance agree in both. -/
inductive Faithful (names : List String) : Scope → Scope → Prop
  | top (module : Module) :
      Faithful names (.inside module [] .empty) (.inside module [] .empty)
  | inInstance {code scope : Scope} (d : Module) {overrides : List Parameter}
      (houter : Faithful names code scope)
      (hoverrides : ∀ parameter ∈ overrides,
        ReferencesAgree names (.merged overrides code) scope parameter.number) :
      Faithful names (.inside d overrides (.merged overrides code)) (.inside d overrides scope)

theorem Faithful.scopesAgree {code scope : Scope} (hfaithful : Faithful names code scope) :
    ScopesAgree names code scope := by
  cases hfaithful with
  | top module => exact ScopesAgree.refl _
  | inInstance d houter hoverrides => exact scopesAgree_inside fun p hp => (hoverrides p hp).expr

/-- A name has the same definition in both, up to the scope the definition is read in. -/
theorem Faithful.definition {code scope : Scope} (hfaithful : Faithful names code scope)
    (name : String) :
    (code.definition name = none ∧ scope.definition name = none) ∨
      ∃ code' scope' expr, code.definition name = some (code', expr) ∧
        scope.definition name = some (scope', expr) ∧ ReferencesAgree names code' scope' expr := by
  have hself := hfaithful.scopesAgree
  cases hfaithful with
  | top module =>
    cases hdefinition : (Scope.inside module [] .empty).definition name with
    | none => exact .inl ⟨rfl, rfl⟩
    | some definition => exact .inr ⟨_, _, _, rfl, rfl, fun _ _ => Agree.refl _⟩
  | inInstance d houter hoverrides =>
    simp only [Scope.definition]
    cases find name d.parameters with
    | some parameter =>
      cases hfind : find name _ with
      | some override =>
        have hmem := List.mem_of_find?_eq_some hfind
        exact .inr ⟨_, _, _, rfl, rfl, hoverrides override hmem⟩
      | none => exact .inr ⟨_, _, _, rfl, rfl, fun node _ => hself.expr _⟩
    | none =>
      cases find name d.localParameters with
      | some parameter => exact .inr ⟨_, _, _, rfl, rfl, fun node _ => hself.expr _⟩
      | none => exact .inl ⟨rfl, rfl⟩

/-- The overrides agree when no reference in them is captured. -/
theorem referencesAgree_of_noCapture {code scope : Scope} {overrides : List Parameter}
    (hagree : ScopesAgree names code scope) {expr : IntegerExpr}
    (hnoCapture : ∀ node ∈ expr.references, ∀ name, names[node]? = some name →
      (find name overrides).isSome → Agree (reading names) (reading names)
        (.merged overrides scope, .integerExprRef node) (scope, .integerExprRef node)) :
    ReferencesAgree names (.merged overrides code) scope expr := by
  intro node hnode
  have hmerged := (hagree.merged overrides).expr (.integerExprRef node)
  refine hmerged.trans (agree_merged _ fun node' hnode' name hname hfind => ?_)
  cases List.mem_singleton.mp hnode'
  exact hnoCapture node hnode name hname hfind

/-- The scope of a definition is that of a reached module, too. -/
theorem Reached.definition {scope scope' : Scope} {module : Module} {name : String}
    {expr : IntegerExpr} (hreached : Reached net scope module)
    (hdefinition : scope.definition name = some (scope', expr)) :
    ∃ module', Reached net scope' module' := by
  have hcases : ∀ (d : Module) (overrides : List Parameter) (outer : Scope),
      (Scope.inside d overrides outer).definition name = some (scope', expr) →
        scope' = .inside d overrides outer ∨ (scope' = outer ∧ overrides ≠ []) := by
    intro d overrides outer hdef
    simp only [Scope.definition] at hdef
    cases hparameter : find name d.parameters with
    | some parameter =>
      rw [hparameter] at hdef
      cases hoverride : find name overrides with
      | some override =>
        simp only [hoverride, Option.some.injEq, Prod.mk.injEq] at hdef
        refine .inr ⟨hdef.1.symm, fun hnil => ?_⟩
        rw [hnil] at hoverride
        cases hoverride
      | none =>
        simp only [hoverride, Option.some.injEq, Prod.mk.injEq] at hdef
        exact .inl hdef.1.symm
    | none =>
      rw [hparameter] at hdef
      obtain ⟨parameter, -, hself⟩ := Option.map_eq_some_iff.mp hdef
      exact .inl (Prod.mk.inj hself).1.symm
  cases hreached with
  | top =>
    rcases hcases _ _ _ hdefinition with rfl | ⟨-, hne⟩
    · exact ⟨_, .top⟩
    · exact absurd rfl hne
  | inInstance houter hinst hmodule =>
    rcases hcases _ _ _ hdefinition with rfl | ⟨rfl, -⟩
    · exact ⟨_, .inInstance houter hinst hmodule⟩
    · exact ⟨_, houter⟩

/-! ### Sufficiency -/

/-- An expression in memory, resolved in a scope of the code that its references agree with. -/
structure Placed (names : List String) (nodes : Nodes) (scope : Scope) (expr expr' : IntegerExpr)
    (code : Scope) (parameters : List Parameter) : Prop where
  realises : Realises names nodes code parameters
  linked : Linked names parameters nodes expr expr'
  agree : ReferencesAgree names code scope expr

theorem Placed.evaluatesAs {scope code : Scope} {expr expr' : IntegerExpr}
    {parameters : List Parameter} (hplaced : Placed names nodes scope expr expr' code parameters)
    (hsettles : DefinitionsSettle names scope) : EvaluatesAs names nodes scope expr expr' := by
  have hagree := hplaced.agree.expr
  refine (evaluatesAs_iff (hplaced.realises.agree hplaced.linked)).mpr ⟨?_, hagree.denotes_iff⟩
  exact hagree.settles_iff.mpr (hsettles.expr expr)

theorem Uniquified.parameter {code : Scope} {module : Module} {unique : UniquifiedModule}
    (huniquified : Uniquified net nodes code module unique) {name : String} {parameter : Parameter}
    (hfind : find name unique.parameters = some parameter) :
    ∃ code' parameters expr, code.definition name = some (code', expr) ∧
      Realises net.references nodes code' parameters ∧
      Linked net.references parameters nodes expr parameter.number := by
  cases huniquified with
  | mk hparameters _ _ _ =>
    rcases hparameters.definition name with ⟨-, hnone⟩ | ⟨code', parameters, expr, p, hdef, hp, hrest⟩
    · cases hfind.symm.trans hnone
    · cases hfind.symm.trans hp
      exact ⟨code', parameters, expr, hdef, hrest⟩

theorem Uniquified.override {code : Scope} {module : Module} {unique : UniquifiedModule}
    (huniquified : Uniquified net nodes code module unique) {inst : Instance}
    {unique' : Instance × UniquifiedModule} {parameter parameter' : Parameter}
    (hinst : (inst, unique') ∈ module.instances.zip unique.instances)
    (hparameter : (parameter, parameter') ∈ inst.parameters.zip unique'.1.parameters) :
    ∃ parameters, Realises net.references nodes (.merged inst.parameters code) parameters ∧
      Linked net.references parameters nodes parameter.number parameter'.number := by
  cases huniquified with
  | mk hparameters _ hinstances _ =>
    have hoverrides := (List.forall₂_zip hinstances hinst).overrides
    exact ⟨_, .merged hparameters hoverrides, (List.forall₂_zip hoverrides hparameter).linked⟩

theorem Uniquified.inInstance {code : Scope} {module d : Module} {unique : UniquifiedModule}
    (huniquified : Uniquified net nodes code module unique) {inst : Instance}
    {unique' : Instance × UniquifiedModule}
    (hinst : (inst, unique') ∈ module.instances.zip unique.instances)
    (hmodule : net.module inst.moduleIdentifier = some d) :
    Uniquified net nodes (.inside d inst.parameters (.merged inst.parameters code)) d unique'.2 := by
  cases huniquified with
  | mk _ _ _ hmodules => exact hmodules inst unique' hinst d hmodule

theorem Site.placed (hnet : net.NoCircleNorCapture) {scope scope' : Scope} {module : Module}
    {unique : UniquifiedModule} {expr expr' : IntegerExpr}
    (hsite : Site net scope module unique scope' expr expr') {code : Scope}
    (huniquified : Uniquified net nodes code module unique)
    (hfaithful : Faithful net.references code scope) (hreached : Reached net scope module) :
    (∃ module', Reached net scope' module') ∧ ∃ code' parameters,
      Placed net.references nodes scope' expr expr' code' parameters := by
  induction hsite generalizing code with
  | @parameter scope scope' module unique name expr parameter hdefinition hfind =>
    refine ⟨hreached.definition hdefinition, ?_⟩
    obtain ⟨code', parameters, expr', hcode, hrealises, hlinked⟩ := huniquified.parameter hfind
    rcases hfaithful.definition name with ⟨hnone, -⟩ | ⟨c, s, e, hc, hs, hagree⟩
    · cases hcode.symm.trans hnone
    · cases hcode.symm.trans hc
      cases hdefinition.symm.trans hs
      exact ⟨code', parameters, hrealises, hlinked, hagree⟩
  | leftIndex hidentifier hleft hleft' =>
    cases huniquified with
    | mk hparameters hidentifiers _ _ =>
      refine ⟨⟨_, hreached⟩, code, _, hparameters, ?_, fun node _ => hfaithful.scopesAgree.expr _⟩
      have hindex := (List.forall₂_zip hidentifiers hidentifier).left
      rw [hleft, hleft'] at hindex
      cases hindex with
      | some hlinked => exact hlinked
  | rightIndex hidentifier hright hright' =>
    cases huniquified with
    | mk hparameters hidentifiers _ _ =>
      refine ⟨⟨_, hreached⟩, code, _, hparameters, ?_, fun node _ => hfaithful.scopesAgree.expr _⟩
      have hindex := (List.forall₂_zip hidentifiers hidentifier).right
      rw [hright, hright'] at hindex
      cases hindex with
      | some hlinked => exact hlinked
  | @override scope module unique inst unique' parameter parameter' hinst hparameter =>
    obtain ⟨parameters, hrealises, hlinked⟩ := huniquified.override hinst hparameter
    refine ⟨⟨module, hreached⟩, _, parameters, hrealises, hlinked, ?_⟩
    apply referencesAgree_of_noCapture hfaithful.scopesAgree
    exact hnet.noCapture scope module hreached inst (List.of_mem_zip hinst).1 parameter
      (List.of_mem_zip hparameter).1
  | @inInstance scope scope' module d unique inst unique' expr expr' hinst hmodule _ ih =>
    have hmem := (List.of_mem_zip hinst).1
    refine ih (huniquified.inInstance hinst hmodule) (.inInstance d hfaithful fun p hp => ?_)
      (.inInstance hreached hmem hmodule)
    apply referencesAgree_of_noCapture hfaithful.scopesAgree
    exact hnet.noCapture scope module hreached inst hmem p hp
  | leftOperand _ ih =>
    obtain ⟨hscope, code', parameters, hplaced⟩ := ih huniquified hfaithful hreached
    cases hplaced.linked with
    | integerBinaryExpr _ hleft hright =>
      exact ⟨hscope, code', parameters, hplaced.realises, hleft,
        fun node hnode => hplaced.agree node (List.mem_append_left _ hnode)⟩
  | rightOperand _ ih =>
    obtain ⟨hscope, code', parameters, hplaced⟩ := ih huniquified hfaithful hreached
    cases hplaced.linked with
    | integerBinaryExpr _ hleft hright =>
      exact ⟨hscope, code', parameters, hplaced.realises, hright,
        fun node hnode => hplaced.agree node (List.mem_append_right _ hnode)⟩
  | operand _ ih =>
    obtain ⟨hscope, code', parameters, hplaced⟩ := ih huniquified hfaithful hreached
    cases hplaced.linked with
    | parenthesizedExpr hoperand =>
      exact ⟨hscope, code', parameters, hplaced.realises, hoperand, hplaced.agree⟩

theorem resolveRight_of_noCircleNorCapture (hnet : net.NoCircleNorCapture)
    {unique : UniquifiedModule}
    (huniquified : Uniquified net nodes (.inside net.top [] .empty) net.top unique) :
    ReferencesResolveRight net unique nodes := by
  intro scope expr expr' hsite
  obtain ⟨⟨module, hreached⟩, code, parameters, hplaced⟩ :=
    hsite.placed hnet huniquified (.top net.top) .top
  exact hplaced.evaluatesAs (hnet.noCircle scope module hreached)

/-! ### Necessity -/

theorem Site.reference {scope scope' : Scope} {module : Module} {unique : UniquifiedModule}
    {related : Nat → Nat → Prop} {expr expr' : IntegerExpr} (halike : expr.Alike related expr')
    (hsite : Site net scope module unique scope' expr expr') :
    ∀ node ∈ expr.references, ∃ node', related node node' ∧
      Site net scope module unique scope' (.integerExprRef node) (.integerExprRef node') := by
  induction halike with
  | integerLiteral value => exact fun _ hnode => absurd hnode List.not_mem_nil
  | integerBinaryExpr kind _ _ ihleft ihright =>
    intro node hnode
    rcases List.mem_append.mp hnode with hnode | hnode
    · exact ihleft hsite.leftOperand node hnode
    · exact ihright hsite.rightOperand node hnode
  | parenthesizedExpr _ ih => exact ih hsite.operand
  | @integerExprRef node node' hnode =>
    intro node'' hmem
    cases List.mem_singleton.mp hmem
    exact ⟨node', hnode, hsite⟩

private theorem exists_mem_zip {α β : Type} {R : α → β → Prop} {as : List α} {bs : List β}
    (hall : List.Forall₂ R as bs) {a : α} (ha : a ∈ as) : ∃ b, (a, b) ∈ as.zip bs := by
  induction hall with
  | nil => cases ha
  | @cons a' b' as bs _ _ ih =>
    rcases List.mem_cons.mp ha with rfl | ha
    · exact ⟨b', List.mem_cons_self⟩
    · obtain ⟨b, hb⟩ := ih ha
      exact ⟨b, List.mem_cons_of_mem _ hb⟩

theorem Uniquified.exists_instance {code : Scope} {module : Module} {unique : UniquifiedModule}
    (huniquified : Uniquified net nodes code module unique) {inst : Instance}
    (hinst : inst ∈ module.instances) :
    ∃ unique', (inst, unique') ∈ module.instances.zip unique.instances ∧
      ∀ parameter ∈ inst.parameters, ∃ parameter',
        (parameter, parameter') ∈ inst.parameters.zip unique'.1.parameters := by
  cases huniquified with
  | mk _ _ hinstances _ =>
    obtain ⟨unique', hmem⟩ := exists_mem_zip hinstances hinst
    refine ⟨unique', hmem, fun parameter hparameter => ?_⟩
    exact exists_mem_zip (List.forall₂_zip hinstances hmem).overrides hparameter

section Necessity

variable {code scope : Scope} {module : Module} {unique : UniquifiedModule}

theorem definitionsSettle_of_sites (huniquified : Uniquified net nodes code module unique)
    (hfaithful : Faithful net.references code scope)
    (hsites : ∀ scope' expr expr', Site net scope module unique scope' expr expr' →
      EvaluatesAs net.references nodes scope' expr expr') :
    DefinitionsSettle net.references scope := by
  intro name definition hdefinition
  rcases hfaithful.definition name with ⟨-, hnone⟩ | ⟨code', scope', expr, hcode, hscope, hagree⟩
  · cases hdefinition.symm.trans hnone
  · cases hdefinition.symm.trans hscope
    cases huniquified with
    | @mk _ _ parameters _ _ hparameters hidentifiers hinstances hmodules =>
      rcases hparameters.definition name with ⟨hnone, -⟩ |
        ⟨code'', parameters', expr', p, hcode', hp, hrealises, hlinked⟩
      · cases hcode.symm.trans hnone
      · cases hcode.symm.trans hcode'
        have hsite := hsites scope' expr p.number (.parameter hdefinition hp)
        have hsettles := ((evaluatesAs_iff (hrealises.agree hlinked)).mp hsite).1
        exact hagree.expr.settles_iff.mp hsettles

theorem overridesAgree_of_sites (huniquified : Uniquified net nodes code module unique)
    (hsettles : DefinitionsSettle net.references scope)
    (hsites : ∀ scope' expr expr', Site net scope module unique scope' expr expr' →
      EvaluatesAs net.references nodes scope' expr expr')
    {inst : Instance} (hinst : inst ∈ module.instances) {parameter : Parameter}
    (hparameter : parameter ∈ inst.parameters) :
    ReferencesAgree net.references (.merged inst.parameters code) scope parameter.number := by
  obtain ⟨unique', hmem, hzip⟩ := huniquified.exists_instance hinst
  obtain ⟨parameter', hmem'⟩ := hzip parameter hparameter
  obtain ⟨parameters, hrealises, hlinked⟩ := huniquified.override hmem hmem'
  intro node hnode
  obtain ⟨node', hrelated, hsite⟩ := Site.reference hlinked (.override hmem hmem') node hnode
  have hmemory := hrealises.agree (.integerExprRef hrelated)
  obtain ⟨hcode, hdenotes⟩ := (evaluatesAs_iff hmemory).mp (hsites _ _ _ hsite)
  exact ⟨hdenotes, fun _ => hsettles.expr _, fun _ => hcode⟩

/-- Every reached module has a uniquified one whose sites are those of the network. -/
theorem Reached.uniquified {top : UniquifiedModule}
    (huniquified : Uniquified net nodes (.inside net.top [] .empty) net.top top)
    (hright : ReferencesResolveRight net top nodes) (hreached : Reached net scope module) :
    ∃ code unique, Uniquified net nodes code module unique ∧ Faithful net.references code scope ∧
      ∀ scope' expr expr', Site net scope module unique scope' expr expr' →
        EvaluatesAs net.references nodes scope' expr expr' := by
  induction hreached with
  | top => exact ⟨_, top, huniquified, .top net.top, hright⟩
  | @inInstance scope module d inst _ hinst hmodule ih =>
    obtain ⟨code, unique, huniquified, hfaithful, hsites⟩ := ih
    obtain ⟨unique', hmem, -⟩ := huniquified.exists_instance hinst
    have hsettles := definitionsSettle_of_sites huniquified hfaithful hsites
    refine ⟨_, unique'.2, huniquified.inInstance hmem hmodule, .inInstance d hfaithful ?_, ?_⟩
    · intro parameter hparameter
      exact overridesAgree_of_sites huniquified hsettles hsites hinst hparameter
    · intro scope' expr expr' hsite
      exact hsites scope' expr expr' (.inInstance hmem hmodule hsite)

end Necessity

theorem noCircleNorCapture_of_resolveRight {unique : UniquifiedModule}
    (huniquified : Uniquified net nodes (.inside net.top [] .empty) net.top unique)
    (hright : ReferencesResolveRight net unique nodes) : net.NoCircleNorCapture where
  noCircle scope module hreached := by
    obtain ⟨code, unique', huniquified', hfaithful, hsites⟩ := hreached.uniquified huniquified hright
    exact definitionsSettle_of_sites huniquified' hfaithful hsites
  noCapture scope module hreached inst hinst parameter hparameter node hnode name _ _ := by
    obtain ⟨code, unique', huniquified', hfaithful, hsites⟩ := hreached.uniquified huniquified hright
    have hsettles := definitionsSettle_of_sites huniquified' hfaithful hsites
    have hcode := overridesAgree_of_sites huniquified' hsettles hsites hinst hparameter node hnode
    have hmerged := (hfaithful.scopesAgree.merged inst.parameters).expr (.integerExprRef node)
    exact hmerged.symm.trans hcode

/-- Every reference is resolved with a definition whose text ends, with the references that are resolved by then. -/
def Network.TextsEnd (net : Network) : Prop :=
  TextsEndBelow net (.inside net.top [] .empty) net.top

/-- Unless uniquification throws, it ends with every reference resolved in the right scope, so that every evaluation ends with the value of the substitution or throws, exactly when no definition is circular, no override is captured and every text ends that is made on the way. -/
theorem referencesResolveRight_iff (net : Network) :
    (∃ fault, Ends (run net.uniquifyAsTop net.nodes) (.error fault)) ∨
      ((∃ unique nodes, Ends (run net.uniquifyAsTop net.nodes) (.ok (unique, nodes)) ∧
          ReferencesResolveRight net unique nodes) ↔
        net.NoCircleNorCapture ∧ net.TextsEnd) := by
  rcases (uniquifyAsTop_decides net).outcome with
    hthrows | ⟨htexts, unique, nodes, hends, huniquified⟩ | ⟨hnot, hnever⟩
  · exact .inl hthrows
  · right
    constructor
    · rintro ⟨unique', nodes', hends', hright⟩
      cases hends.unique hends'
      exact ⟨noCircleNorCapture_of_resolveRight huniquified hright, htexts⟩
    · rintro ⟨hnet, -⟩
      exact ⟨unique, nodes, hends, resolveRight_of_noCircleNorCapture hnet huniquified⟩
  · right
    constructor
    · rintro ⟨unique, nodes, hends, -⟩
      exact absurd hends (hnever _)
    · exact fun h => absurd h.2 hnot

/-! ### An override with the parameter of the top module -/

/-- A top module where `SIZE` is 8, with an instance of a module whose parameter is 4 unless it is overridden, and may bound a vector. The instance overrides it with `$SIZE`. -/
def overriddenWithSize (name : String) (bounds : Bool) : Network where
  references := ["SIZE", name]
  modules := [{
    name := "M"
    parameters := [⟨name, .integerLiteral 4⟩]
    localParameters := []
    identifiers := if bounds then [⟨some (.integerExprRef 1), some (.integerLiteral 0)⟩] else []
    instances := [] }]
  top := {
    name := "Top"
    parameters := [⟨"SIZE", .integerLiteral 8⟩]
    localParameters := []
    identifiers := []
    instances := [⟨"inst", "M", [⟨name, .integerExprRef 0⟩]⟩] }
  declared := by
    cases bounds with
    | false =>
      simp [Module.exprs, Module.overrides, IntegerExpr.references]
    | true =>
      simp [Module.exprs, Module.overrides, VectorIdentifier.exprs, IntegerExpr.references]
  separate := by
    cases bounds with
    | false =>
      simp [Module.exprs, Module.overrides, IntegerExpr.references]
    | true =>
      simp [Module.exprs, Module.overrides, VectorIdentifier.exprs, IntegerExpr.references]

section Override

variable {name : String} {bounds : Bool}

theorem overriddenWithSize_module {inst : Instance} {d : Module}
    (hinst : inst ∈ (overriddenWithSize name bounds).top.instances)
    (hmodule : (overriddenWithSize name bounds).module inst.moduleIdentifier = some d) :
    inst.parameters = [⟨name, .integerExprRef 0⟩] ∧ d.parameters = [⟨name, .integerLiteral 4⟩] ∧
      d.localParameters = [] ∧ d.instances = [] := by
  cases List.mem_singleton.mp hinst
  cases hmodule
  exact ⟨rfl, rfl, rfl, rfl⟩

theorem overriddenWithSize_top :
    DefinitionsSettle ["SIZE", name] (.inside (overriddenWithSize name bounds).top [] .empty) := by
  intro other definition hdefinition
  by_cases hother : "SIZE" = other
  · subst hother
    cases hdefinition
    exact .value rfl
  · simp [Scope.definition, overriddenWithSize, find, hother] at hdefinition

theorem overriddenWithSize_reached {scope : Scope} {module : Module}
    (hreached : Reached (overriddenWithSize name bounds) scope module) :
    (scope = .inside (overriddenWithSize name bounds).top [] .empty ∧
        module = (overriddenWithSize name bounds).top) ∨
      (DefinitionsSettle ["SIZE", name] scope ∧ module.instances = []) := by
  induction hreached with
  | top => exact .inl ⟨rfl, rfl⟩
  | @inInstance scope module d inst _ hinst hmodule ih =>
    right
    rcases ih with ⟨rfl, rfl⟩ | ⟨-, hnone⟩
    · obtain ⟨hover, hparameters, hlocal, hinstances⟩ := overriddenWithSize_module hinst hmodule
      refine ⟨fun other definition hdefinition => ?_, hinstances⟩
      by_cases hother : name = other
      · subst hother
        simp only [Scope.definition, hparameters, hover, find] at hdefinition
        simp at hdefinition
        rw [← hdefinition]
        exact overriddenWithSize_top.expr _
      · simp [Scope.definition, hparameters, hlocal, find, hother] at hdefinition
    · rw [hnone] at hinst
      cases hinst

theorem overriddenWithSize_noCircleNorCapture (hname : name ≠ "SIZE") :
    (overriddenWithSize name bounds).NoCircleNorCapture where
  noCircle scope module hreached := by
    rcases overriddenWithSize_reached hreached with ⟨rfl, -⟩ | ⟨hsettles, -⟩
    · exact overriddenWithSize_top
    · exact hsettles
  noCapture scope module hreached inst hinst parameter hparameter node hnode other hother hfind := by
    rcases overriddenWithSize_reached hreached with ⟨-, rfl⟩ | ⟨-, hnone⟩
    · cases List.mem_singleton.mp hinst
      cases List.mem_singleton.mp hparameter
      cases List.mem_singleton.mp hnode
      cases hother
      simp [find, hname] at hfind
    · rw [hnone] at hinst
      cases hinst

theorem overriddenWithSize_textsEnd (hname : name ≠ "SIZE") :
    (overriddenWithSize name bounds).TextsEnd := by
  have hsize : (Scope.merged [⟨name, .integerExprRef 0⟩]
      (.inside (overriddenWithSize name bounds).top [] .empty)).definition "SIZE" =
        some (.inside (overriddenWithSize name bounds).top [] .empty, .integerLiteral 8) := by
    simp [Scope.definition, overriddenWithSize, find, hname]
  have hlink : reading ["SIZE", name] (.merged [⟨name, .integerExprRef 0⟩]
      (.inside (overriddenWithSize name bounds).top [] .empty), .integerExprRef 0) =
        .link (.inside (overriddenWithSize name bounds).top [] .empty, .integerLiteral 8) := by
    simp only [reading, List.getElem?_cons_zero, Option.bind_some, hsize]
  refine textsEndBelow_iff.mpr ⟨trivial, fun inst hinst => ?_,
    fun _ hnone => absurd hnone List.not_mem_nil⟩
  cases List.mem_singleton.mp hinst
  refine ⟨⟨fun definition hdefinition => ?_, trivial⟩, fun d hd => ?_⟩
  · cases hsize.symm.trans hdefinition
    exact .value rfl
  · cases hd
    refine textsEndBelow_iff.mpr ⟨?_, fun _ hnone => absurd hnone List.not_mem_nil,
      fun node hnode definition hdefinition => ?_⟩
    · simp [Scope.references, Module.ownParameters, find, InOrder]
    · cases bounds with
      | false => cases hnode
      | true =>
        cases List.mem_singleton.mp hnode
        simp [Scope.definition, overriddenWithSize, find] at hdefinition
        rw [← hdefinition]
        exact .link hlink (.value rfl)

end Override

/-- What uniquification makes of it. -/
def uniquifiedWithSize (name : String) (bounds : Bool) : UniquifiedModule :=
  .mk [⟨"SIZE", .integerLiteral 8⟩] []
    [(⟨"inst", "M", [⟨name, .integerExprRef 2⟩]⟩,
      .mk [⟨name, .integerExprRef 2⟩]
        (if bounds then [⟨some (.integerExprRef 3), some (.integerLiteral 0)⟩] else []) [])]

/-- With a parameter of another name, the override is 8. -/
theorem referencesResolveRight_width : ∃ unique nodes,
    Ends (run (overriddenWithSize "WIDTH" true).uniquifyAsTop (overriddenWithSize "WIDTH" true).nodes)
      (.ok (unique, nodes)) ∧
    ReferencesResolveRight (overriddenWithSize "WIDTH" true) unique nodes := by
  have hrun : Ends (run (overriddenWithSize "WIDTH" true).uniquifyAsTop
      (overriddenWithSize "WIDTH" true).nodes)
      (.ok (uniquifiedWithSize "WIDTH" true, [⟨some "SIZE", none⟩, ⟨some "WIDTH", none⟩,
        ⟨none, some (.integerLiteral 8)⟩, ⟨none, some (.integerExprRef 2)⟩])) := by
    refine ⟨4, fun fuel hfuel => ?_⟩
    obtain ⟨rest, rfl⟩ := Nat.exists_eq_add_of_le' hfuel
    rfl
  rcases referencesResolveRight_iff (overriddenWithSize "WIDTH" true) with ⟨fault, hthrows⟩ | hiff
  · cases hrun.unique hthrows
  · exact hiff.mpr ⟨overriddenWithSize_noCircleNorCapture (by decide),
      overriddenWithSize_textsEnd (by decide)⟩

/-- The override in memory, when it has the name of the parameter of the top module: it refers to itself. -/
def selfReference (rest : Nodes) : Nodes :=
  [⟨some "SIZE", none⟩, ⟨some "SIZE", none⟩, ⟨none, some (.integerExprRef 2)⟩] ++ rest

theorem selfReference_evaluate (rest : Nodes) (fuel : Nat) :
    ((IntegerExpr.integerExprRef 2).evaluate (selfReference rest) fuel).run = none := by
  induction fuel with
  | zero => rfl
  | succ fuel ih => exact ih

theorem selfReference_asText (rest : Nodes) (fuel : Nat) :
    ((IntegerExpr.integerExprRef 2).asTextIn (selfReference rest) fuel).run = none := by
  induction fuel with
  | zero => rfl
  | succ fuel ih =>
    change Option.bind ((IntegerExpr.integerExprRef 2).asTextIn (selfReference rest) fuel).run _ = none
    rw [ih]
    rfl

theorem selfReference_resolve (rest : Nodes) (fuel node : Nat)
    (hnode : (selfReference rest)[node]? = some ⟨some "SIZE", none⟩) :
    IntegerExprRef.resolve fuel [⟨"SIZE", .integerExprRef 2⟩] node (selfReference rest) = none := by
  have htext : (liftM (Parameter.asText (selfReference rest) fuel ⟨"SIZE", .integerExprRef 2⟩) :
      Step Nodes Fault BinaryVector.Text) (selfReference rest) = none := by
    change Option.bind (Option.bind
      ((IntegerExpr.integerExprRef 2).asTextIn (selfReference rest) fuel).run _) _ = none
    rw [selfReference_asText]
    rfl
  refine (bind_run_ok rfl).trans ?_
  simp only [hnode]
  exact (bind_run_ok rfl).trans (bind_run_none htext)

/-- With a parameter of the same name, the override is resolved with itself. It is to be 8, and its evaluation never ends; when it bounds a vector, uniquification never ends. -/
theorem size_not_resolved :
    (∃ unique nodes,
      Ends (run (overriddenWithSize "SIZE" false).uniquifyAsTop
          (overriddenWithSize "SIZE" false).nodes) (.ok (unique, nodes)) ∧
        ¬ ReferencesResolveRight (overriddenWithSize "SIZE" false) unique nodes ∧
        ∃ scope expr expr', Site (overriddenWithSize "SIZE" false)
            (.inside (overriddenWithSize "SIZE" false).top [] .empty)
            (overriddenWithSize "SIZE" false).top unique scope expr expr' ∧
          Denotes (reading (overriddenWithSize "SIZE" false).references) (scope, expr) 8 ∧
          ∀ fuel, (expr'.evaluate nodes fuel).run = none) ∧
    ∀ fuel, run (overriddenWithSize "SIZE" true).uniquifyAsTop
      (overriddenWithSize "SIZE" true).nodes fuel = none := by
  constructor
  · have hrun : Ends (run (overriddenWithSize "SIZE" false).uniquifyAsTop
        (overriddenWithSize "SIZE" false).nodes)
        (.ok (uniquifiedWithSize "SIZE" false, selfReference [])) := by
      refine ⟨3, fun fuel hfuel => ?_⟩
      obtain ⟨rest, rfl⟩ := Nat.exists_eq_add_of_le' hfuel
      rfl
    have hsite : Site (overriddenWithSize "SIZE" false)
        (.inside (overriddenWithSize "SIZE" false).top [] .empty) (overriddenWithSize "SIZE" false).top
        (uniquifiedWithSize "SIZE" false) (.inside (overriddenWithSize "SIZE" false).top [] .empty)
        (Parameter.mk "SIZE" (.integerExprRef 0)).number
        (Parameter.mk "SIZE" (.integerExprRef 2)).number :=
      .override List.mem_cons_self List.mem_cons_self
    refine ⟨_, _, hrun, fun hright => ?_, _, _, _, hsite, .link rfl (.value rfl),
      selfReference_evaluate []⟩
    obtain ⟨result, ⟨enough, hends⟩, -⟩ := hright _ _ _ hsite
    cases (hends enough (Nat.le_refl _)).symm.trans (selfReference_evaluate [] enough)
  · intro fuel
    match fuel with
    | 0 => rfl
    | 1 => rfl
    | fuel + 2 =>
      -- the parameters and identifiers of the top module, then its only instance
      refine (bind_run_ok rfl).trans ((bind_run_ok rfl).trans (bind_run_none (bind_run_none ?_)))
      -- the clone of the instance, its override and its module, which is uniquified
      refine (bind_run_ok rfl).trans ((bind_run_ok rfl).trans ((bind_run_ok rfl).trans ?_))
      refine bind_run_none ((bind_run_ok rfl).trans ((bind_run_ok rfl).trans ?_))
      -- the identifiers and instances of the module, then the left bound of its vector
      refine (bind_run_ok rfl).trans ((bind_run_ok rfl).trans (bind_run_none ?_))
      refine bind_run_none (bind_run_none ((bind_run_ok rfl).trans ?_))
      exact selfReference_resolve [⟨some "SIZE", none⟩] (fuel + 1) 3 rfl

end AST

end Mast
