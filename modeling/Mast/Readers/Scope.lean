import Mast.Readers.IntegerExpr
import Mathlib.Data.Option.Basic

/-!
# What parameter references mean

A module is instantiated with overrides for its parameters, and the overrides are written in another scope than the defaults. A scope tells which definition a name has and in which scope that definition is to be read. Together with the names that references are declared with, this makes a graph of terms: what an expression denotes in a scope is the value that substituting definitions for references gives.
-/

namespace Mast

namespace AST

open TermGraph

/-- What the meaning of its parameters needs of an `AST_Instance`. -/
structure Instance where
  name : String
  moduleIdentifier : String
  parameters : List Parameter
  deriving DecidableEq, Repr

/-- What the meaning of its parameters needs of an `AST_Module`: the identifiers are those of its registers, ports and multiplexers. -/
structure Module where
  name : String
  parameters : List Parameter
  localParameters : List Parameter
  identifiers : List VectorIdentifier
  instances : List Instance
  deriving DecidableEq, Repr

/-! ### The values -/

def Operator.onNat : Operator → Nat → Nat → Option Nat
  | .add, left, right => some (left + right)
  | .substract, left, right => if right ≤ left then some (left - right) else none
  | .multiply, left, right => some (left * right)
  | .divide, left, right => if right = 0 then none else some (left / right)
  | .modulo, left, right => if right = 0 then none else some (left % right)

def Operator.value (kind : Operator) (left right : UInt32) : Option UInt32 :=
  match kind.onNat left.toNat right.toNat with
  | some value => if value < UInt32.size then some (UInt32.ofNat value) else none
  | none => none

private theorem value_eq_of_toNat {kind : Operator} {left right result : UInt32}
    (hnat : kind.onNat left.toNat right.toNat = some result.toNat) :
    kind.value left right = some result := by
  simp only [Operator.value, hnat, if_pos result.toNat_lt_size, UInt32.ofNat_toNat]

/-- An operation throws exactly when it has no value that fits. -/
theorem Operator.evaluate_eq_ok_iff (kind : Operator) (left right value : UInt32) :
    kind.evaluate left right = .ok value ↔ kind.value left right = some value := by
  have hleft := left.toNat_lt
  have hright := right.toNat_lt
  cases kind with
  | add =>
    have hsum : (left + right).toNat = (left.toNat + right.toNat) % 2 ^ 32 := UInt32.toNat_add ..
    have hguard : left + right ≥ left ↔ left.toNat ≤ (left + right).toNat := UInt32.le_iff_toNat_le
    by_cases hfits : left.toNat + right.toNat < 2 ^ 32
    · rw [Nat.mod_eq_of_lt hfits] at hsum
      have hvalue : Operator.add.value left right = some (left + right) :=
        value_eq_of_toNat (by rw [hsum]; rfl)
      rw [hvalue, Operator.evaluate, if_pos (hguard.mpr (by omega))]
      simp
    · have hvalue : Operator.add.value left right = none := if_neg hfits
      have hwraps : ¬ left + right ≥ left := fun h => by
        have hle := hguard.mp h
        omega
      rw [hvalue, Operator.evaluate, if_neg hwraps]
      simp
  | substract =>
    have hguard : left ≥ right ↔ right.toNat ≤ left.toNat := UInt32.le_iff_toNat_le
    by_cases hle : right.toNat ≤ left.toNat
    · have hvalue : Operator.substract.value left right = some (left - right) := by
        apply value_eq_of_toNat
        rw [UInt32.toNat_sub_of_le _ _ (hguard.mpr hle)]
        exact if_pos hle
      rw [hvalue, Operator.evaluate, if_pos (hguard.mpr hle)]
      simp
    · have hvalue : Operator.substract.value left right = none := by
        simp only [Operator.value, Operator.onNat, if_neg hle]
      rw [hvalue, Operator.evaluate, if_neg fun h => hle (hguard.mp h)]
      simp
  | multiply =>
    have hproduct : (left.toUInt64 * right.toUInt64).toNat = left.toNat * right.toNat := by
      have hbound : left.toNat * right.toNat < 2 ^ 32 * 2 ^ 32 := Nat.mul_lt_mul'' hleft hright
      rw [UInt64.toNat_mul, UInt32.toNat_toUInt64, UInt32.toNat_toUInt64]
      exact Nat.mod_eq_of_lt (by omega)
    have hguard : left.toUInt64 * right.toUInt64 ≤ 0xFFFFFFFF ↔
        left.toNat * right.toNat ≤ 0xFFFFFFFF := by
      rw [UInt64.le_iff_toNat_le, hproduct]
      rfl
    by_cases hfits : left.toNat * right.toNat ≤ 0xFFFFFFFF
    · have hvalue : Operator.multiply.value left right =
          some (left.toUInt64 * right.toUInt64).toUInt32 := by
        apply value_eq_of_toNat
        rw [UInt64.toNat_toUInt32, hproduct, Nat.mod_eq_of_lt (by omega)]
        rfl
      rw [hvalue, Operator.evaluate, if_pos (hguard.mpr hfits)]
      simp
    · have hvalue : Operator.multiply.value left right = none :=
        if_neg (by unfold UInt32.size; omega)
      rw [hvalue, Operator.evaluate, if_neg fun h => hfits (hguard.mp h)]
      simp
  | divide =>
    have hzero : right = 0 ↔ right.toNat = 0 := UInt32.toNat_inj.symm
    by_cases hnone : right = 0
    · have hvalue : Operator.divide.value left right = none := by
        simp only [Operator.value, Operator.onNat, if_pos (hzero.mp hnone)]
      rw [hvalue, Operator.evaluate, if_neg (not_not.mpr hnone)]
      simp
    · have hvalue : Operator.divide.value left right = some (left / right) := by
        apply value_eq_of_toNat
        rw [UInt32.toNat_div]
        exact if_neg fun h => hnone (hzero.mpr h)
      rw [hvalue, Operator.evaluate, if_pos hnone]
      simp
  | modulo =>
    have hzero : right = 0 ↔ right.toNat = 0 := UInt32.toNat_inj.symm
    by_cases hnone : right = 0
    · have hvalue : Operator.modulo.value left right = none := by
        simp only [Operator.value, Operator.onNat, if_pos (hzero.mp hnone)]
      rw [hvalue, Operator.evaluate, if_neg (not_not.mpr hnone)]
      simp
    · have hvalue : Operator.modulo.value left right = some (left % right) := by
        apply value_eq_of_toNat
        rw [UInt32.toNat_mod]
        exact if_neg fun h => hnone (hzero.mpr h)
      rw [hvalue, Operator.evaluate, if_pos hnone]
      simp

/-! ### Scopes -/

inductive Scope
  | empty
  /-- The overrides, and behind them the parameters of the embedding module. -/
  | merged (overrides : List Parameter) (outer : Scope)
  /-- A module whose overrides are read in the outer scope. -/
  | inside (module : Module) (overrides : List Parameter) (outer : Scope)
  deriving DecidableEq

def Scope.definition : Scope → String → Option (Scope × IntegerExpr)
  | .empty, _ => none
  | .merged overrides outer, name =>
    match find name overrides with
    | some parameter => some (.merged overrides outer, parameter.number)
    | none => outer.definition name
  | .inside module overrides outer, name =>
    match find name module.parameters with
    | some parameter =>
      match find name overrides with
      | some override => some (outer, override.number)
      | none => some (.inside module overrides outer, parameter.number)
    | none =>
      (find name module.localParameters).map fun parameter =>
        (.inside module overrides outer, parameter.number)

def Scope.depth : Scope → Nat
  | .empty => 0
  | .merged _ outer => outer.depth + 1
  | .inside _ _ outer => outer.depth + 1

theorem Scope.definition_depth {scope scope' : Scope} {name : String} {expr : IntegerExpr}
    (hdefinition : scope.definition name = some (scope', expr)) : scope'.depth ≤ scope.depth := by
  induction scope with
  | empty => cases hdefinition
  | merged overrides outer ih =>
    simp only [Scope.definition] at hdefinition
    cases hfind : find name overrides with
    | some parameter =>
      rw [hfind] at hdefinition
      cases hdefinition
      exact Nat.le_refl _
    | none =>
      rw [hfind] at hdefinition
      exact Nat.le_succ_of_le (ih hdefinition)
  | inside module overrides outer _ =>
    simp only [Scope.definition] at hdefinition
    cases hfind : find name module.parameters with
    | some parameter =>
      simp only [hfind] at hdefinition
      cases hoverride : find name overrides with
      | some override =>
        rw [hoverride] at hdefinition
        cases hdefinition
        exact Nat.le_succ _
      | none =>
        rw [hoverride] at hdefinition
        cases hdefinition
        exact Nat.le_refl _
    | none =>
      rw [hfind] at hdefinition
      obtain ⟨parameter, -, hself⟩ := Option.map_eq_some_iff.mp hdefinition
      cases hself
      exact Nat.le_refl _

/-- An expression read in a scope, for the names of the references. -/
def reading (names : List String) : Scope × IntegerExpr → Shape (Scope × IntegerExpr) UInt32
  | (_, .integerLiteral value) => .value value
  | (scope, .integerBinaryExpr kind left right) => .apply kind.value (scope, left) (scope, right)
  | (scope, .parenthesizedExpr operand) => .link (scope, operand)
  | (scope, .integerExprRef node) =>
    match names[node]?.bind scope.definition with
    | some definition => .link definition
    | none => .fails

/-! ### Scopes that agree -/

variable {names : List String} {a b : Scope}

def ScopesAgree (names : List String) (a b : Scope) : Prop :=
  ∀ name, Option.Rel (Agree (reading names) (reading names)) (a.definition name) (b.definition name)

theorem ScopesAgree.refl (a : Scope) : ScopesAgree names a a := by
  intro name
  cases a.definition name with
  | none => exact .none
  | some definition => exact .some (Agree.refl definition)

private theorem definition_cases {α : Type} {R : α → α → Prop} {x y : Option α}
    (hrel : Option.Rel R x y) :
    (x = none ∧ y = none) ∨ ∃ u v, x = some u ∧ y = some v ∧ R u v := by
  cases hrel with
  | none => exact .inl ⟨rfl, rfl⟩
  | some huv => exact .inr ⟨_, _, rfl, rfl, huv⟩

theorem ScopesAgree.expr (hagree : ScopesAgree names a b) (expr : IntegerExpr) :
    Agree (reading names) (reading names) (a, expr) (b, expr) := by
  apply Agree.of_match
  induction expr with
  | integerLiteral value => exact .value value
  | integerBinaryExpr kind left right ihleft ihright =>
    exact .apply _ (Agree.of_match ihleft) (Agree.of_match ihright)
  | parenthesizedExpr operand ih => exact .link (Agree.of_match ih)
  | integerExprRef node =>
    simp only [reading]
    cases names[node]? with
    | none => exact .fails
    | some name =>
      simp only [Option.bind_some]
      rcases definition_cases (hagree name) with ⟨ha, hb⟩ | ⟨k, k', ha, hb, hdefinition⟩
      · rw [ha, hb]
        exact .fails
      · rw [ha, hb]
        exact .link hdefinition

/-- Definitions that are the same expression, each in its own scope, or that are known to agree. -/
theorem scopesAgree_of_definitions
    (hdefinitions : ∀ name, Option.Rel
      (fun k k' => (k.1 = a ∧ k'.1 = b ∧ k.2 = k'.2) ∨ Agree (reading names) (reading names) k k')
      (a.definition name) (b.definition name)) : ScopesAgree names a b := by
  have hagree : ∀ k k' : Scope × IntegerExpr,
      ((k.1 = a ∧ k'.1 = b ∧ k.2 = k'.2) ∨ Agree (reading names) (reading names) k k') →
        Agree (reading names) (reading names) k k' := by
    intro k k' hrel
    refine agree_of_match (R := fun k k' =>
      (k.1 = a ∧ k'.1 = b ∧ k.2 = k'.2) ∨ Agree (reading names) (reading names) k k')
      (fun k k' hrel => ?_) hrel
    obtain ⟨rfl, rfl, hsame⟩ | hagree := hrel
    · left
      obtain ⟨scope, expr⟩ := k
      obtain ⟨scope', expr'⟩ := k'
      cases (show expr = expr' from hsame)
      cases expr with
      | integerLiteral value => exact .value value
      | integerBinaryExpr kind left right =>
        exact .apply _ (.inl ⟨rfl, rfl, rfl⟩) (.inl ⟨rfl, rfl, rfl⟩)
      | parenthesizedExpr operand => exact .link (.inl ⟨rfl, rfl, rfl⟩)
      | integerExprRef node =>
        simp only [reading]
        cases names[node]? with
        | none => exact .fails
        | some name =>
          simp only [Option.bind_some]
          rcases definition_cases (hdefinitions name) with ⟨ha, hb⟩ | ⟨k, k', ha, hb, hdefinition⟩
          · rw [ha, hb]
            exact .fails
          · rw [ha, hb]
            exact .link hdefinition
    · exact .inr hagree
  intro name
  rcases definition_cases (hdefinitions name) with ⟨ha, hb⟩ | ⟨k, k', ha, hb, hdefinition⟩
  · rw [ha, hb]
    exact .none
  · rw [ha, hb]
    exact .some (hagree _ _ hdefinition)

theorem ScopesAgree.merged (hagree : ScopesAgree names a b) (overrides : List Parameter) :
    ScopesAgree names (.merged overrides a) (.merged overrides b) := by
  apply scopesAgree_of_definitions
  intro name
  simp only [Scope.definition]
  cases find name overrides with
  | some parameter => exact .some (.inl ⟨rfl, rfl, rfl⟩)
  | none =>
    rcases definition_cases (hagree name) with ⟨ha, hb⟩ | ⟨k, k', ha, hb, hdefinition⟩
    · rw [ha, hb]
      exact .none
    · rw [ha, hb]
      exact .some (.inr hdefinition)

theorem scopesAgree_inside {module : Module} {overrides : List Parameter}
    (hoverrides : ∀ parameter ∈ overrides,
      Agree (reading names) (reading names) (a, parameter.number) (b, parameter.number)) :
    ScopesAgree names (.inside module overrides a) (.inside module overrides b) := by
  apply scopesAgree_of_definitions
  intro name
  simp only [Scope.definition]
  cases find name module.parameters with
  | some parameter =>
    cases hoverride : find name overrides with
    | some override => exact .some (.inr (hoverrides _ (List.mem_of_find?_eq_some hoverride)))
    | none => exact .some (.inl ⟨rfl, rfl, rfl⟩)
  | none =>
    cases find name module.localParameters with
    | some parameter => exact .some (.inl ⟨rfl, rfl, rfl⟩)
    | none => exact .none

def IntegerExpr.references : IntegerExpr → List Nat
  | .integerLiteral _ => []
  | .integerBinaryExpr _ left right => left.references ++ right.references
  | .parenthesizedExpr operand => operand.references
  | .integerExprRef node => [node]

/-- Reading overrides with the overrides themselves in front makes a difference only through the references to names that are overridden. -/
theorem agree_merged {overrides : List Parameter} (expr : IntegerExpr)
    (hshadowed : ∀ node ∈ expr.references, ∀ name, names[node]? = some name →
      (find name overrides).isSome → Agree (reading names) (reading names)
        (.merged overrides a, .integerExprRef node) (a, .integerExprRef node)) :
    Agree (reading names) (reading names) (.merged overrides a, expr) (a, expr) := by
  induction expr with
  | integerLiteral value => exact Agree.of_match (.value value)
  | integerBinaryExpr kind left right ihleft ihright =>
    have hleft := ihleft fun node hnode => hshadowed node (List.mem_append_left _ hnode)
    have hright := ihright fun node hnode => hshadowed node (List.mem_append_right _ hnode)
    exact Agree.of_match (.apply _ hleft hright)
  | parenthesizedExpr operand ih => exact Agree.of_match (.link (ih hshadowed))
  | integerExprRef node =>
    cases hname : names[node]? with
    | none =>
      apply Agree.of_match
      simp only [reading, hname, Option.bind_none]
      exact .fails
    | some name =>
      cases hfind : find name overrides with
      | some parameter =>
        exact hshadowed node (List.mem_singleton.mpr rfl) name hname (by rw [hfind]; rfl)
      | none =>
        apply Agree.of_match
        simp only [reading, hname, Option.bind_some, Scope.definition, hfind]
        cases a.definition name with
        | none => exact .fails
        | some definition => exact .link (Agree.refl definition)

end AST

end Mast
