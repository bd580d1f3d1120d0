import Mast.Readers.ResolvedScope

/-!
# The text of parameters

Resolving a reference makes the text of the parameter it is resolved with. The text follows the references that are resolved already, through every operand, so that it ends exactly when that graph unfolds.

References are resolved one after another with the parameters of a scope. While this goes on, the definitions that are read in the scope itself hold references that are still to be resolved, where the text stops.
-/

namespace Mast

namespace AST

open BinaryVector (Text decimal)
open Fuel Program TermGraph

variable {names : List String} {nodes : Nodes}

/-! ### Text in memory -/

def inText (nodes : Nodes) : IntegerExpr → Shape IntegerExpr UInt32
  | .integerLiteral value => .value value
  | .integerBinaryExpr kind left right => .apply kind.value left right
  | .parenthesizedExpr operand => .link operand
  | .integerExprRef node =>
    match nodes[node]? with
    | some ⟨none, some integerExpr⟩ => .link integerExpr
    | _ => .fails

theorem asText_succ {fuel : Nat} {expr : IntegerExpr} {result : Except Fault Text}
    (htext : (expr.asTextIn nodes fuel).run = some result) :
    (expr.asTextIn nodes (fuel + 1)).run = some result := by
  induction fuel generalizing expr result with
  | zero => cases htext
  | succ fuel ih =>
    cases expr with
    | integerLiteral value => exact htext
    | integerBinaryExpr kind left right =>
      refine run_bind_eq_some_iff.mpr ((run_bind_eq_some_iff.mp htext).imp ?_ ?_)
      · rintro ⟨e, hleft, rfl⟩
        exact ⟨e, ih hleft, rfl⟩
      · rintro ⟨l, hleft, hrest⟩
        refine ⟨l, ih hleft, run_bind_eq_some_iff.mpr ((run_bind_eq_some_iff.mp hrest).imp ?_ ?_)⟩
        · rintro ⟨e, hright, rfl⟩
          exact ⟨e, ih hright, rfl⟩
        · rintro ⟨r, hright, hresult⟩
          exact ⟨r, ih hright, hresult⟩
    | parenthesizedExpr operand =>
      refine run_bind_eq_some_iff.mpr ((run_bind_eq_some_iff.mp htext).imp ?_ ?_)
      · rintro ⟨e, hoperand, rfl⟩
        exact ⟨e, ih hoperand, rfl⟩
      · rintro ⟨o, hoperand, hresult⟩
        exact ⟨o, ih hoperand, hresult⟩
    | integerExprRef node =>
      simp only [IntegerExpr.asTextIn] at htext ⊢
      match hnode : nodes[node]? with
      | none => simpa only [hnode] using htext
      | some ⟨some name, target⟩ => simpa only [hnode] using htext
      | some ⟨none, none⟩ => simpa only [hnode] using htext
      | some ⟨none, some integerExpr⟩ =>
        rw [hnode] at htext
        refine run_bind_eq_some_iff.mpr ((run_bind_eq_some_iff.mp htext).imp ?_ ?_)
        · rintro ⟨e, htarget, rfl⟩
          exact ⟨e, ih htarget, rfl⟩
        · rintro ⟨t, htarget, hresult⟩
          exact ⟨t, ih htarget, hresult⟩

theorem asText_le {fuel more : Nat} (hle : fuel ≤ more) {expr : IntegerExpr}
    {result : Except Fault Text} (htext : (expr.asTextIn nodes fuel).run = some result) :
    (expr.asTextIn nodes more).run = some result := by
  induction hle with
  | refl => exact htext
  | step _ ih => exact asText_succ ih

theorem unfolds_of_asText {fuel : Nat} {expr : IntegerExpr} {text : Text}
    (htext : (expr.asTextIn nodes fuel).run = some (.ok text)) : Unfolds (inText nodes) expr := by
  induction fuel generalizing expr text with
  | zero => cases htext
  | succ fuel ih =>
    cases expr with
    | integerLiteral value => exact .value rfl
    | integerBinaryExpr kind left right =>
      obtain ⟨e, -, herror⟩ | ⟨l, hleft, hrest⟩ := run_bind_eq_some_iff.mp htext
      · cases herror
      · obtain ⟨e, -, herror⟩ | ⟨r, hright, -⟩ := run_bind_eq_some_iff.mp hrest
        · cases herror
        · exact .apply rfl (ih hleft) (ih hright)
    | parenthesizedExpr operand =>
      obtain ⟨e, -, herror⟩ | ⟨o, hoperand, -⟩ := run_bind_eq_some_iff.mp htext
      · cases herror
      · exact .link rfl (ih hoperand)
    | integerExprRef node =>
      simp only [IntegerExpr.asTextIn] at htext
      match hnode : nodes[node]? with
      | none => exact .fails (by simp only [inText, hnode])
      | some ⟨some name, target⟩ => exact .fails (by simp only [inText, hnode])
      | some ⟨none, none⟩ => exact .fails (by simp only [inText, hnode])
      | some ⟨none, some integerExpr⟩ =>
        rw [hnode] at htext
        obtain ⟨e, -, herror⟩ | ⟨t, htarget, -⟩ := run_bind_eq_some_iff.mp htext
        · cases herror
        · exact .link (by simp only [inText, hnode]) (ih htarget)

private theorem asText_ref_ends {node : Nat} (htarget : ∀ target,
      inText nodes (.integerExprRef node) = .link target →
        ∃ fuel result, (target.asTextIn nodes fuel).run = some result) :
    ∃ fuel result, ((IntegerExpr.integerExprRef node).asTextIn nodes fuel).run = some result := by
  match hnode : nodes[node]? with
  | none => exact ⟨1, .error .undefinedBehaviour, by simp only [IntegerExpr.asTextIn, hnode]; rfl⟩
  | some ⟨some name, target⟩ => exact ⟨1, .ok ('$' :: name.toList), by simp only [IntegerExpr.asTextIn, hnode]; rfl⟩
  | some ⟨none, none⟩ => exact ⟨1, _, by simp only [IntegerExpr.asTextIn, hnode]; rfl⟩
  | some ⟨none, some integerExpr⟩ =>
    obtain ⟨fuel, result, htext⟩ := htarget integerExpr (by simp only [inText, hnode])
    refine ⟨fuel + 1, ?_⟩
    simp only [IntegerExpr.asTextIn, hnode]
    exact exists_run_bind htext fun text _ => ⟨_, rfl⟩

theorem asText_of_unfolds {expr : IntegerExpr} (hunfolds : Unfolds (inText nodes) expr) :
    ∃ fuel result, (expr.asTextIn nodes fuel).run = some result := by
  induction hunfolds with
  | @value expr v hview =>
    cases expr with
    | integerLiteral value => exact ⟨1, .ok (decimal value.toNat), rfl⟩
    | integerBinaryExpr kind left right => cases hview
    | parenthesizedExpr operand => cases hview
    | integerExprRef node =>
      apply asText_ref_ends
      intro target htarget
      cases hview.symm.trans htarget
  | @fails expr hview =>
    cases expr with
    | integerLiteral value => cases hview
    | integerBinaryExpr kind left right => cases hview
    | parenthesizedExpr operand => cases hview
    | integerExprRef node =>
      apply asText_ref_ends
      intro target htarget
      cases hview.symm.trans htarget
  | @link expr target hview _ ih =>
    cases expr with
    | integerLiteral value => cases hview
    | integerBinaryExpr kind left right => cases hview
    | parenthesizedExpr operand =>
      cases hview
      obtain ⟨fuel, result, htext⟩ := ih
      exact ⟨fuel + 1, exists_run_bind htext fun text _ => ⟨_, rfl⟩⟩
    | integerExprRef node =>
      apply asText_ref_ends
      intro target htarget
      cases hview.symm.trans htarget
      exact ih
  | @apply expr left right operation hview _ _ ihleft ihright =>
    cases expr with
    | integerLiteral value => cases hview
    | integerBinaryExpr kind left right =>
      cases hview
      obtain ⟨fuel, result, hleft⟩ := ihleft
      obtain ⟨fuel', result', hright⟩ := ihright
      replace hleft := asText_le (Nat.le_max_left fuel fuel') hleft
      replace hright := asText_le (Nat.le_max_right fuel fuel') hright
      refine ⟨max fuel fuel' + 1, exists_run_bind hleft fun l _ => ?_⟩
      exact exists_run_bind hright fun r _ => ⟨_, rfl⟩
    | parenthesizedExpr operand => cases hview
    | integerExprRef node =>
      apply asText_ref_ends
      intro target htarget
      cases hview.symm.trans htarget

/-- The text of a parameter ends exactly when its number unfolds, unless it throws. -/
theorem parameterText_decides (nodes : Nodes) (parameter : Parameter) :
    Decides (fun fuel => (liftM (parameter.asText nodes fuel) : Step Nodes Fault Text)) nodes
      (Unfolds (inText nodes) parameter.number) fun _ nodes' => nodes' = nodes := by
  by_cases hends : ∃ fuel result, (parameter.number.asTextIn nodes fuel).run = some result
  · obtain ⟨enough, result, htext⟩ := hends
    cases result with
    | error e =>
      have hrun : Eventually (fun fuel => (parameter.asText nodes fuel).run) (some (.error e)) :=
        ⟨enough, fun fuel hle => run_bind_eq_some_iff.mpr (.inl ⟨e, asText_le hle htext, rfl⟩)⟩
      exact Decides.lift hrun (fun _ hok => (by cases hok)) fun hnone => (by cases hnone)
    | ok text =>
      have hrun : Eventually (fun fuel => (parameter.asText nodes fuel).run)
          (some (.ok (parameter.name.toList ++ ' ' :: '=' :: ' ' :: text))) :=
        ⟨enough, fun fuel hle => run_bind_eq_some_iff.mpr (.inr ⟨text, asText_le hle htext, rfl⟩)⟩
      refine Decides.lift hrun (fun _ _ => ⟨unfolds_of_asText htext, rfl⟩) fun hnone => ?_
      cases hnone
  · have hnone : ∀ fuel, (parameter.number.asTextIn nodes fuel).run = none := by
      intro fuel
      by_contra hsome
      obtain ⟨result, hresult⟩ := Option.ne_none_iff_exists'.mp hsome
      exact hends ⟨fuel, result, hresult⟩
    have hrun : Eventually (fun fuel => (parameter.asText nodes fuel).run) none := by
      refine ⟨0, fun fuel _ => ?_⟩
      change Option.bind (parameter.number.asTextIn nodes fuel).run _ = _
      rw [hnone]
      rfl
    exact Decides.lift hrun (fun _ hok => (by cases hok)) fun _ h => hends (asText_of_unfolds h)

/-! ### References in order -/

/-- The parameters of a module that are not overridden, with the local ones. -/
def Module.ownParameters (module : Module) (overrides : List Parameter) : List Parameter :=
  module.parameters.filter (fun parameter => (find parameter.name overrides).isNone) ++
    module.localParameters

/-- The references that are resolved with the parameters of a scope, in this order. -/
def Scope.references : Scope → List Nat
  | .empty => []
  | .merged overrides _ => overrides.flatMap (·.number.references)
  | .inside module overrides _ => (module.ownParameters overrides).flatMap (·.number.references)

/-- Each reference meets the condition when the ones in front of it are resolved, too. -/
def InOrder (condition : List Nat → Nat → Prop) : List Nat → List Nat → Prop
  | _, [] => True
  | resolved, node :: rest => condition resolved node ∧ InOrder condition (resolved ++ [node]) rest

variable {condition : List Nat → Nat → Prop} {resolved : List Nat}

theorem inOrder_append {first rest : List Nat} :
    InOrder condition resolved (first ++ rest) ↔
      InOrder condition resolved first ∧ InOrder condition (resolved ++ first) rest := by
  induction first generalizing resolved with
  | nil => rw [List.nil_append, List.append_nil, InOrder, true_and]
  | cons node first ih =>
    rw [List.cons_append, InOrder, InOrder, ih, List.append_assoc, List.singleton_append, and_assoc]

theorem inOrder_const {condition : Nat → Prop} {references : List Nat} :
    InOrder (fun _ => condition) resolved references ↔ ∀ node ∈ references, condition node := by
  induction references generalizing resolved with
  | nil => simp [InOrder]
  | cons node rest ih => rw [InOrder, ih, List.forall_mem_cons]

/-- The reading of expressions while some of the references that are read in the scope itself are still to be resolved. -/
def readingSoFar (names : List String) (scope : Scope) (resolved : List Nat) (k : Scope × IntegerExpr) :
    Shape (Scope × IntegerExpr) UInt32 :=
  match k with
  | (scope', .integerExprRef node) =>
    if scope' = scope ∧ node ∉ resolved then .fails else reading names k
  | _ => reading names k

/-- The text of the definition that a reference is resolved with ends. -/
def TextEnds (names : List String) (scope : Scope) (resolved : List Nat) (node : Nat) : Prop :=
  ∀ definition, names[node]?.bind scope.definition = some definition →
    Unfolds (readingSoFar names scope resolved) definition

/-! ### The text of a definition -/

def Cloned (copies : List (Nat × Nat)) : IntegerExpr → IntegerExpr → Prop :=
  IntegerExpr.Alike fun node node' => (node, node') ∈ copies

/-- The copies of references while they are resolved with the parameters. -/
structure Stage (names : List String) (parameters : List Parameter) (copies : List (Nat × Nat))
    (resolved : List Nat) (nodes : Nodes) : Prop where
  pending : ∀ node node', (node, node') ∈ copies → node ∉ resolved →
    ∃ name, names[node]? = some name ∧ nodes[node']? = some ⟨some name, none⟩
  done : ∀ node node', (node, node') ∈ copies → node ∈ resolved → ∃ name parameter,
    names[node]? = some name ∧ find name parameters = some parameter ∧
      nodes[node']? = some ⟨none, some parameter.number⟩

/-- Each parameter is the copy of a definition that is read in the scope itself, or a definition from outside, which is resolved. -/
def Provides (names : List String) (nodes : Nodes) (copies : List (Nat × Nat)) (scope : Scope)
    (parameters : List Parameter) : Prop :=
  ∀ name, (scope.definition name = none ∧ find name parameters = none) ∨
    ∃ scope' expr parameter, scope.definition name = some (scope', expr) ∧
      find name parameters = some parameter ∧
      (scope' = scope ∧ Cloned copies expr parameter.number ∨
        scope'.depth < scope.depth ∧ ∃ parameters', Realises names nodes scope' parameters' ∧
          Linked names parameters' nodes expr parameter.number)

variable {scope : Scope} {parameters : List Parameter} {copies : List (Nat × Nat)}

/-- A resolved expression looks like its reading, and leads to resolved expressions that are read no deeper. -/
theorem Realises.text_match (hrealises : Realises names nodes scope parameters)
    {expr expr' : IntegerExpr} (hlinked : Linked names parameters nodes expr expr') :
    (reading names (scope, expr)).Match (fun k e => k.1.depth ≤ scope.depth ∧
      ∃ parameters', Realises names nodes k.1 parameters' ∧ Linked names parameters' nodes k.2 e)
      (inText nodes expr') := by
  cases hlinked with
  | integerLiteral value => exact .value value
  | integerBinaryExpr kind hleft hright =>
    exact .apply _ ⟨Nat.le_refl _, parameters, hrealises, hleft⟩
      ⟨Nat.le_refl _, parameters, hrealises, hright⟩
  | parenthesizedExpr hoperand => exact .link ⟨Nat.le_refl _, parameters, hrealises, hoperand⟩
  | integerExprRef hnode =>
    obtain ⟨name, parameter, hname, hfind, hnow⟩ := hnode
    simp only [reading, inText, hname, hnow, Option.bind_some]
    rcases hrealises.definition name with ⟨-, hnone⟩ | ⟨scope', ps, expr, p, hdefinition, hp, hrest⟩
    · cases hfind.symm.trans hnone
    · cases hfind.symm.trans hp
      rw [hdefinition]
      exact .link ⟨Scope.definition_depth hdefinition, ps, hrest⟩

/-- The text of a parameter in memory ends when that of its definition does. -/
theorem Provides.text_iff (hprovides : Provides names nodes copies scope parameters)
    (hstage : Stage names parameters copies resolved nodes) {name : String} {node : Nat}
    {parameter : Parameter} (hname : names[node]? = some name)
    (hfind : find name parameters = some parameter) :
    Unfolds (inText nodes) parameter.number ↔ TextEnds names scope resolved node := by
  let R : Scope × IntegerExpr → IntegerExpr → Prop := fun k expr =>
    k.1 = scope ∧ Cloned copies k.2 expr ∨
      k.1.depth < scope.depth ∧ ∃ parameters', Realises names nodes k.1 parameters' ∧
        Linked names parameters' nodes k.2 expr
  have hmatch : ∀ k expr, R k expr → (readingSoFar names scope resolved k).Match R (inText nodes expr) := by
    rintro ⟨scope', expr⟩ expr' (⟨rfl, hcloned⟩ | ⟨hdepth, parameters', hrealises, hlinked⟩)
    · cases hcloned with
      | integerLiteral value => exact .value value
      | integerBinaryExpr kind hleft hright =>
        exact .apply _ (.inl ⟨rfl, hleft⟩) (.inl ⟨rfl, hright⟩)
      | parenthesizedExpr hoperand => exact .link (.inl ⟨rfl, hoperand⟩)
      | @integerExprRef node node' hnode =>
        by_cases hresolved : node ∈ resolved
        · obtain ⟨name, parameter, hname, hfind, hnow⟩ := hstage.done node node' hnode hresolved
          simp only [readingSoFar, reading, inText, hresolved, hname, hnow, not_true_eq_false, and_false,
            if_false, Option.bind_some]
          rcases hprovides name with ⟨-, hnone⟩ | ⟨scope'', expr, p, hdefinition, hp, hrel⟩
          · cases hfind.symm.trans hnone
          · cases hfind.symm.trans hp
            rw [hdefinition]
            exact .link hrel
        · obtain ⟨name, -, hnow⟩ := hstage.pending node node' hnode hresolved
          simp only [readingSoFar, inText, hresolved, hnow, not_false_eq_true, and_self, if_true]
          exact .fails
    · have hsame : readingSoFar names scope resolved (scope', expr) = reading names (scope', expr) := by
        have hother : scope' ≠ scope := by
          rintro rfl
          exact Nat.lt_irrefl _ hdepth
        cases expr with
        | integerExprRef node => exact if_neg fun h => hother h.1
        | _ => rfl
      rw [hsame]
      exact (hrealises.text_match hlinked).imp fun k e h =>
        .inr ⟨Nat.lt_of_le_of_lt h.1 hdepth, h.2⟩
  rcases hprovides name with ⟨-, hnone⟩ | ⟨scope', expr, p, hdefinition, hp, hrel⟩
  · cases hfind.symm.trans hnone
  · cases hfind.symm.trans hp
    have hiff := unfolds_iff_of_match hmatch (k := (scope', expr)) hrel
    rw [← hiff, TextEnds, hname, Option.bind_some, hdefinition]
    simp only [Option.some.injEq, forall_eq']

/-- When all of the scope is in memory, nothing is left to be resolved. -/
theorem Realises.text_iff (hrealises : Realises names nodes scope parameters) {name : String}
    {node : Nat} {parameter : Parameter} (hname : names[node]? = some name)
    (hfind : find name parameters = some parameter) :
    Unfolds (inText nodes) parameter.number ↔
      ∀ definition, names[node]?.bind scope.definition = some definition →
        Unfolds (reading names) definition := by
  let R : Scope × IntegerExpr → IntegerExpr → Prop := fun k expr =>
    ∃ parameters', Realises names nodes k.1 parameters' ∧ Linked names parameters' nodes k.2 expr
  have hmatch : ∀ k expr, R k expr → (reading names k).Match R (inText nodes expr) := by
    rintro k expr ⟨parameters', hrealises, hlinked⟩
    exact (hrealises.text_match hlinked).imp fun _ _ h => h.2
  rcases hrealises.definition name with ⟨-, hnone⟩ | ⟨scope', ps, expr, p, hdefinition, hp, hrest⟩
  · cases hfind.symm.trans hnone
  · cases hfind.symm.trans hp
    have hiff := unfolds_iff_of_match hmatch (k := (scope', expr)) ⟨ps, hrest⟩
    rw [← hiff, hname, Option.bind_some, hdefinition]
    simp only [Option.some.injEq, forall_eq']

end AST

end Mast
