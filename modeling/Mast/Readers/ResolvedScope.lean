import Mast.Readers.Scope

/-!
# Resolved expressions

In memory, a resolved reference points at the expression of a parameter. Evaluation follows these pointers, so expressions in memory are a graph of terms as well, and evaluation ends exactly where that graph settles.

When every reference of an expression is resolved with the parameters that realise a scope, the graph in memory can be matched with the reading of the expression in that scope.
-/

namespace Mast

namespace AST

open Fuel TermGraph

variable {names : List String} {nodes : Nodes}

/-! ### Evaluation -/

def inMemory (nodes : Nodes) : IntegerExpr → Shape IntegerExpr UInt32
  | .integerLiteral value => .value value
  | .integerBinaryExpr kind left right => .apply kind.value left right
  | .parenthesizedExpr operand => .link operand
  | .integerExprRef node =>
    match nodes[node]?.bind (·.integerExpr) with
    | some integerExpr => .link integerExpr
    | none => .fails

theorem evaluate_eq_some {fuel : Nat} {expr : IntegerExpr} {result : Except Fault UInt32}
    (heval : (expr.evaluate nodes fuel).run = some result) :
    Settles (inMemory nodes) expr ∧ ∀ v, result = .ok v ↔ Denotes (inMemory nodes) expr v := by
  induction fuel generalizing expr result with
  | zero => cases heval
  | succ fuel ih =>
    cases expr with
    | integerLiteral value =>
      cases heval
      have hview : inMemory nodes (.integerLiteral value) = .value value := rfl
      refine ⟨.value hview, fun v => ?_⟩
      rw [denotes_value_iff hview, Except.ok.injEq, eq_comm]
    | integerBinaryExpr kind left right =>
      have hview : inMemory nodes (.integerBinaryExpr kind left right) =
          .apply kind.value left right := rfl
      simp only [settles_apply_iff hview, denotes_apply_iff hview]
      obtain ⟨e, hleft, rfl⟩ | ⟨v, hleft, hrest⟩ := run_bind_eq_some_iff.mp heval
      · obtain ⟨hsettles, hdenotes⟩ := ih hleft
        have hnone : ∀ v, ¬ Denotes (inMemory nodes) left v := by
          intro v hv
          cases (hdenotes v).mpr hv
        refine ⟨⟨hsettles, fun v hv => absurd hv (hnone v)⟩, fun u => ⟨fun hu => ?_, fun hu => ?_⟩⟩
        · cases hu
        · obtain ⟨v, _, hv, -⟩ := hu
          exact absurd hv (hnone v)
      · obtain ⟨hsettles, hdenotes⟩ := ih hleft
        have hv := (hdenotes v).mp rfl
        obtain ⟨e, hright, rfl⟩ | ⟨w, hright, hrest⟩ := run_bind_eq_some_iff.mp hrest
        · obtain ⟨hsettles', hdenotes'⟩ := ih hright
          refine ⟨⟨hsettles, fun _ _ => hsettles'⟩, fun u => ⟨fun hu => ?_, fun hu => ?_⟩⟩
          · cases hu
          · obtain ⟨_, w, -, hw, -⟩ := hu
            cases (hdenotes' w).mpr hw
        · obtain ⟨hsettles', hdenotes'⟩ := ih hright
          have hw := (hdenotes' w).mp rfl
          have hresult : kind.evaluate v w = result := Option.some.inj hrest
          refine ⟨⟨hsettles, fun _ _ => hsettles'⟩, fun u => ?_⟩
          rw [← hresult, Operator.evaluate_eq_ok_iff]
          constructor
          · intro hu
            exact ⟨v, w, hv, hw, hu⟩
          · rintro ⟨v', w', hv', hw', hu⟩
            rwa [hv.unique hv', hw.unique hw']
    | parenthesizedExpr operand =>
      have hoperand : (operand.evaluate nodes fuel).run = some result := heval
      have hview : inMemory nodes (.parenthesizedExpr operand) = .link operand := rfl
      obtain ⟨hsettles, hdenotes⟩ := ih hoperand
      refine ⟨.link hview hsettles, fun v => ?_⟩
      rw [denotes_link_iff hview]
      exact hdenotes v
    | integerExprRef node =>
      simp only [IntegerExpr.evaluate] at heval
      have hfails : ∀ fault, result = .error fault →
          inMemory nodes (.integerExprRef node) = .fails →
          Settles (inMemory nodes) (.integerExprRef node) ∧
            ∀ v, result = .ok v ↔ Denotes (inMemory nodes) (.integerExprRef node) v := by
        intro fault hresult hview
        refine ⟨.fails hview, fun v => ⟨fun hv => ?_, fun hv => absurd hv (not_denotes_of_fails hview)⟩⟩
        rw [hresult] at hv
        cases hv
      match hnode : nodes[node]? with
      | none =>
        rw [hnode] at heval
        exact hfails _ (Option.some.inj heval).symm (by simp only [inMemory, hnode, Option.bind_none])
      | some ⟨parameterRef, none⟩ =>
        rw [hnode] at heval
        exact hfails _ (Option.some.inj heval).symm (by simp only [inMemory, hnode, Option.bind_some])
      | some ⟨parameterRef, some integerExpr⟩ =>
        rw [hnode] at heval
        have hview : inMemory nodes (.integerExprRef node) = .link integerExpr := by
          simp only [inMemory, hnode, Option.bind_some]
        have htarget : (integerExpr.evaluate nodes fuel).run = some result := heval
        obtain ⟨hsettles, hdenotes⟩ := ih htarget
        refine ⟨.link hview hsettles, fun v => ?_⟩
        rw [denotes_link_iff hview]
        exact hdenotes v

private theorem evaluate_ref_ends {node : Nat}
    (htarget : ∀ target, inMemory nodes (.integerExprRef node) = .link target →
      ∃ result, Ends (fun fuel => (target.evaluate nodes fuel).run) result) :
    ∃ result, Ends (fun fuel => ((IntegerExpr.integerExprRef node).evaluate nodes fuel).run)
      result := by
  match hnode : nodes[node]? with
  | none =>
    refine ⟨.error .undefinedBehaviour, Ends.succ ((ends_some _).congr fun fuel => ?_)⟩
    simp only [IntegerExpr.evaluate, hnode]
    rfl
  | some ⟨parameterRef, none⟩ =>
    refine ⟨.error notResolved, Ends.succ ((ends_some _).congr fun fuel => ?_)⟩
    simp only [IntegerExpr.evaluate, hnode]
    rfl
  | some ⟨parameterRef, some integerExpr⟩ =>
    obtain ⟨result, hends⟩ := htarget integerExpr (by simp only [inMemory, hnode, Option.bind_some])
    refine ⟨result, Ends.succ (hends.congr fun fuel => ?_)⟩
    simp only [IntegerExpr.evaluate, hnode]

private theorem evaluate_binary_ends {kind : Operator} {left right : IntegerExpr}
    (hleft : ∃ result, Ends (fun fuel => (left.evaluate nodes fuel).run) result)
    (hright : ∀ v, Denotes (inMemory nodes) left v →
      ∃ result, Ends (fun fuel => (right.evaluate nodes fuel).run) result) :
    ∃ result, Ends
      (fun fuel => ((IntegerExpr.integerBinaryExpr kind left right).evaluate nodes fuel).run)
      result := by
  obtain ⟨result, enough, hends⟩ := hleft
  obtain ⟨-, hdenotes⟩ := evaluate_eq_some (hends enough (Nat.le_refl _))
  cases result with
  | error e =>
    refine ⟨.error e, Ends.succ ⟨enough, fun fuel hfuel => ?_⟩⟩
    exact run_bind_eq_some_iff.mpr (.inl ⟨e, hends fuel hfuel, rfl⟩)
  | ok v =>
    obtain ⟨result, enough', hends'⟩ := hright v ((hdenotes v).mp rfl)
    cases result with
    | error e =>
      refine ⟨.error e, Ends.succ ⟨max enough enough', fun fuel hfuel => ?_⟩⟩
      have hright := hends' fuel (Nat.le_trans (Nat.le_max_right _ _) hfuel)
      refine run_bind_eq_some_iff.mpr (.inr ⟨v, hends fuel ?_, ?_⟩)
      · exact Nat.le_trans (Nat.le_max_left _ _) hfuel
      · exact run_bind_eq_some_iff.mpr (.inl ⟨e, hright, rfl⟩)
    | ok w =>
      refine ⟨kind.evaluate v w, Ends.succ ⟨max enough enough', fun fuel hfuel => ?_⟩⟩
      have hright := hends' fuel (Nat.le_trans (Nat.le_max_right _ _) hfuel)
      refine run_bind_eq_some_iff.mpr (.inr ⟨v, hends fuel ?_, ?_⟩)
      · exact Nat.le_trans (Nat.le_max_left _ _) hfuel
      · exact run_bind_eq_some_iff.mpr (.inr ⟨w, hright, rfl⟩)

theorem evaluate_ends {expr : IntegerExpr} (hsettles : Settles (inMemory nodes) expr) :
    ∃ result, Ends (fun fuel => (expr.evaluate nodes fuel).run) result := by
  induction hsettles with
  | @value expr v hview =>
    cases expr with
    | integerLiteral value => exact ⟨.ok value, Ends.succ (ends_some _)⟩
    | integerBinaryExpr kind left right => cases hview
    | parenthesizedExpr operand => cases hview
    | integerExprRef node =>
      apply evaluate_ref_ends
      intro target htarget
      cases hview.symm.trans htarget
  | @fails expr hview =>
    cases expr with
    | integerLiteral value => cases hview
    | integerBinaryExpr kind left right => cases hview
    | parenthesizedExpr operand => cases hview
    | integerExprRef node =>
      apply evaluate_ref_ends
      intro target htarget
      cases hview.symm.trans htarget
  | @link expr target hview _ ih =>
    cases expr with
    | integerLiteral value => cases hview
    | integerBinaryExpr kind left right => cases hview
    | parenthesizedExpr operand =>
      cases hview
      obtain ⟨result, hends⟩ := ih
      exact ⟨result, Ends.succ hends⟩
    | integerExprRef node =>
      apply evaluate_ref_ends
      intro target htarget
      cases hview.symm.trans htarget
      exact ih
  | @apply expr left right operation hview hleft hright ihleft ihright =>
    cases expr with
    | integerLiteral value => cases hview
    | integerBinaryExpr kind left right =>
      cases hview
      exact evaluate_binary_ends ihleft ihright
    | parenthesizedExpr operand => cases hview
    | integerExprRef node =>
      apply evaluate_ref_ends
      intro target htarget
      cases hview.symm.trans htarget

/-- Evaluation ends exactly when substitution does, with the value if there is one. -/
theorem evaluates_iff {expr : IntegerExpr} {P : UInt32 → Prop} :
    (∃ result, Ends (fun fuel => (expr.evaluate nodes fuel).run) result ∧
        ∀ v, result = .ok v ↔ P v) ↔
      Settles (inMemory nodes) expr ∧ ∀ v, Denotes (inMemory nodes) expr v ↔ P v := by
  constructor
  · rintro ⟨result, hends, hresult⟩
    obtain ⟨enough, hends⟩ := hends
    obtain ⟨hsettles, hdenotes⟩ := evaluate_eq_some (hends enough (Nat.le_refl _))
    exact ⟨hsettles, fun v => (hdenotes v).symm.trans (hresult v)⟩
  · rintro ⟨hsettles, hdenotes⟩
    obtain ⟨result, enough, hends⟩ := evaluate_ends hsettles
    obtain ⟨-, hresult⟩ := evaluate_eq_some (hends enough (Nat.le_refl _))
    exact ⟨result, ⟨enough, hends⟩, fun v => (hresult v).trans (hdenotes v)⟩

/-! ### Scopes in memory -/

/-- The same expression, with related nodes for the references. -/
inductive IntegerExpr.Alike (related : Nat → Nat → Prop) : IntegerExpr → IntegerExpr → Prop
  | integerLiteral (value : UInt32) : Alike related (.integerLiteral value) (.integerLiteral value)
  | integerBinaryExpr (kind : Operator) {left right left' right' : IntegerExpr}
      (hleft : Alike related left left') (hright : Alike related right right') :
      Alike related (.integerBinaryExpr kind left right) (.integerBinaryExpr kind left' right')
  | parenthesizedExpr {operand operand' : IntegerExpr} (hoperand : Alike related operand operand') :
      Alike related (.parenthesizedExpr operand) (.parenthesizedExpr operand')
  | integerExprRef {node node' : Nat} (hnode : related node node') :
      Alike related (.integerExprRef node) (.integerExprRef node')

theorem IntegerExpr.Alike.imp {related related' : Nat → Nat → Prop} {expr expr' : IntegerExpr}
    (halike : expr.Alike related expr') (himp : ∀ node node', related node node' → related' node node') :
    expr.Alike related' expr' := by
  induction halike with
  | integerLiteral value => exact .integerLiteral value
  | integerBinaryExpr kind _ _ ihleft ihright => exact .integerBinaryExpr kind ihleft ihright
  | parenthesizedExpr _ ih => exact .parenthesizedExpr ih
  | integerExprRef hnode => exact .integerExprRef (himp _ _ hnode)

/-- The second expression is the first one with its references resolved by the parameters. -/
def Linked (names : List String) (parameters : List Parameter) (nodes : Nodes) :
    IntegerExpr → IntegerExpr → Prop :=
  IntegerExpr.Alike fun node node' => ∃ name parameter, names[node]? = some name ∧
    find name parameters = some parameter ∧ nodes[node']? = some ⟨none, some parameter.number⟩

/-- A definition and the parameter it becomes when its references are resolved by the parameters. -/
structure LinkedParameter (names : List String) (parameters : List Parameter) (nodes : Nodes)
    (parameter parameter' : Parameter) : Prop where
  name_eq : parameter'.name = parameter.name
  linked : Linked names parameters nodes parameter.number parameter'.number

/-- A parameter of a module, with the override it has, if any. -/
structure LinkedOrOverridden (names : List String) (overrides outer parameters : List Parameter)
    (nodes : Nodes) (parameter parameter' : Parameter) : Prop where
  name_eq : parameter'.name = parameter.name
  overridden : ∀ override, find parameter.name overrides = some override →
    Linked names outer nodes override.number parameter'.number
  linked : find parameter.name overrides = none →
    Linked names parameters nodes parameter.number parameter'.number

/-- The parameters that references are resolved with, when they are read in a scope. -/
inductive Realises (names : List String) (nodes : Nodes) : Scope → List Parameter → Prop
  | empty : Realises names nodes .empty []
  | merged {overrides overrides' outer' : List Parameter} {outer : Scope}
      (houter : Realises names nodes outer outer')
      (hoverrides : List.Forall₂ (LinkedParameter names (overrides' ++ outer') nodes)
        overrides overrides') :
      Realises names nodes (.merged overrides outer) (overrides' ++ outer')
  | inside {module : Module} {overrides outer' parameters localParameters : List Parameter}
      {outer : Scope} (houter : Realises names nodes outer outer')
      (hparameters : List.Forall₂
        (LinkedOrOverridden names overrides outer' (parameters ++ localParameters) nodes)
        module.parameters parameters)
      (hlocal : List.Forall₂ (LinkedParameter names (parameters ++ localParameters) nodes)
        module.localParameters localParameters) :
      Realises names nodes (.inside module overrides outer) (parameters ++ localParameters)

theorem find_append (name : String) (parameters parameters' : List Parameter) :
    find name (parameters ++ parameters') = (find name parameters).or (find name parameters') :=
  List.find?_append

theorem find_name {name : String} {parameters : List Parameter} {parameter : Parameter}
    (hfind : find name parameters = some parameter) : parameter.name = name := by
  unfold find at hfind
  have hname := List.find?_some hfind
  exact of_decide_eq_true hname

/-- Two lists with the same names, element by element: the first elements with a name correspond. -/
theorem find_forall₂ {P : Parameter → Parameter → Prop} {parameters parameters' : List Parameter}
    (hname : ∀ p p', P p p' → p'.name = p.name) (hall : List.Forall₂ P parameters parameters')
    (name : String) :
    (find name parameters = none ∧ find name parameters' = none) ∨
      ∃ p p', find name parameters = some p ∧ find name parameters' = some p' ∧ P p p' := by
  induction hall with
  | nil => exact .inl ⟨rfl, rfl⟩
  | @cons p p' rest rest' hp _ ih =>
    by_cases hfirst : p.name = name
    · right
      refine ⟨p, p', ?_, ?_, hp⟩
      · exact List.find?_cons_of_pos (decide_eq_true hfirst)
      · exact List.find?_cons_of_pos (decide_eq_true ((hname p p' hp).trans hfirst))
    · have hskip : find name (p :: rest) = find name rest :=
        List.find?_cons_of_neg (by simp [hfirst])
      have hskip' : find name (p' :: rest') = find name rest' :=
        List.find?_cons_of_neg (by simp [hname p p' hp, hfirst])
      rw [hskip, hskip']
      exact ih

/-- A name is defined in a scope exactly when a parameter has it, and the parameter is the definition, resolved in its own scope. -/
theorem Realises.definition {scope : Scope} {parameters : List Parameter}
    (hrealises : Realises names nodes scope parameters) (name : String) :
    (scope.definition name = none ∧ find name parameters = none) ∨
      ∃ scope' parameters' expr parameter, scope.definition name = some (scope', expr) ∧
        find name parameters = some parameter ∧ Realises names nodes scope' parameters' ∧
        Linked names parameters' nodes expr parameter.number := by
  induction hrealises with
  | empty => exact .inl ⟨rfl, rfl⟩
  | @merged overrides overrides' outer' outer houter hoverrides ih =>
    rw [find_append]
    simp only [Scope.definition]
    rcases find_forall₂ (fun _ _ h => h.name_eq) hoverrides name with
      ⟨hnone, hnone'⟩ | ⟨p, p', hp, hp', hlinked⟩
    · rw [hnone, hnone', Option.none_or]
      exact ih
    · rw [hp, hp', Option.some_or]
      exact .inr ⟨_, _, _, _, rfl, rfl, .merged houter hoverrides, hlinked.linked⟩
  | @inside module overrides outer' parameters localParameters outer houter hparameters hlocal _ =>
    have hself : Realises names nodes (.inside module overrides outer)
        (parameters ++ localParameters) := .inside houter hparameters hlocal
    rw [find_append]
    simp only [Scope.definition]
    rcases find_forall₂ (fun _ _ h => h.name_eq) hparameters name with
      ⟨hnone, hnone'⟩ | ⟨p, p', hp, hp', hlinked⟩
    · rw [hnone, hnone', Option.none_or]
      rcases find_forall₂ (fun _ _ h => h.name_eq) hlocal name with
        ⟨hnone, hnone'⟩ | ⟨p, p', hp, hp', hlinked⟩
      · exact .inl ⟨by rw [hnone]; rfl, hnone'⟩
      · exact .inr ⟨_, _, _, _, by rw [hp]; rfl, hp', hself, hlinked.linked⟩
    · rw [hp, hp', Option.some_or]
      have hname : p.name = name := find_name hp
      cases hoverride : find name overrides with
      | some override =>
        have hoverridden := hlinked.overridden override (hname ▸ hoverride)
        exact .inr ⟨_, _, _, _, rfl, rfl, houter, hoverridden⟩
      | none =>
        have hdefault := hlinked.linked (hname ▸ hoverride)
        exact .inr ⟨_, _, _, _, rfl, rfl, hself, hdefault⟩

/-- A resolved expression in memory agrees with its reading. -/
theorem Realises.agree {scope : Scope} {parameters : List Parameter} {expr expr' : IntegerExpr}
    (hrealises : Realises names nodes scope parameters)
    (hlinked : Linked names parameters nodes expr expr') :
    Agree (reading names) (inMemory nodes) (scope, expr) expr' := by
  refine agree_of_match (R := fun k e => ∃ parameters, Realises names nodes k.1 parameters ∧
    Linked names parameters nodes k.2 e) (fun k e hrel => .inl ?_) ⟨parameters, hrealises, hlinked⟩
  obtain ⟨scope, expr⟩ := k
  obtain ⟨parameters, hrealises, hlinked⟩ := hrel
  cases hlinked with
  | integerLiteral value => exact .value value
  | integerBinaryExpr kind hleft hright =>
    exact .apply _ ⟨parameters, hrealises, hleft⟩ ⟨parameters, hrealises, hright⟩
  | parenthesizedExpr hoperand => exact .link ⟨parameters, hrealises, hoperand⟩
  | integerExprRef hnode =>
    obtain ⟨name, parameter, hname, hfind, hnode⟩ := hnode
    simp only [reading, inMemory, hname, hnode, Option.bind_some]
    rcases hrealises.definition name with ⟨-, hnone⟩ | ⟨scope', parameters', expr', p, hdef, hp, hrest⟩
    · cases hfind.symm.trans hnone
    · cases hfind.symm.trans hp
      rw [hdef]
      exact .link ⟨parameters', hrest⟩

end AST

end Mast
