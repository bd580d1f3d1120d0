import Mast.Icl.IntegerGrammar
import Mast.Lib.OperatorChains
import Mast.Readers.Scope

/-!
# The meaning of ICL integer expressions

What an integer expression means by the rules of arithmetic, with operators of equal precedence grouped from the left, beside what the tree of the parser evaluates to, which groups them from the right. Both have no value where an operation is not defined on natural numbers or its result does not fit in 32 bits.
-/

namespace Mast

namespace Icl

open AST (IntegerExpr Operator)
/-! ### Evaluation of trees -/

def evaluation (fuel : Nat) (tokens : List Token) : ExceptT Fault Option UInt32 := do
  let tree ← read fuel tokens
  tree.evaluate [] fuel

/-- The value that a call returns; none when it throws. -/
def valueOf (result : Except Fault UInt32) : Option Nat := result.toOption.map UInt32.toNat

end Icl

namespace AST

open Icl (orThrow valueOf)

/-- What `Evaluate` does to an expression without references. -/
def IntegerExpr.outcome : IntegerExpr → Except Fault UInt32
  | .integerLiteral value => .ok value
  | .integerBinaryExpr kind left right => do
    let left ← left.outcome
    let right ← right.outcome
    kind.evaluate left right
  | .parenthesizedExpr operand => operand.outcome
  | .integerExprRef _ => .error notResolved

def IntegerExpr.height : IntegerExpr → Nat
  | .integerLiteral _ => 1
  | .integerBinaryExpr _ left right => max left.height right.height + 1
  | .parenthesizedExpr operand => operand.height + 1
  | .integerExprRef _ => 1

theorem evaluate_eq_outcome {expr : IntegerExpr} (hplain : expr.Plain) {fuel : Nat}
    (hfuel : expr.height ≤ fuel) : expr.evaluate [] fuel = orThrow expr.outcome := by
  induction expr generalizing fuel with
  | integerLiteral value =>
    obtain ⟨fuel, rfl⟩ := Nat.exists_eq_add_of_le' hfuel
    rfl
  | integerBinaryExpr kind left right ihleft ihright =>
    obtain ⟨fuel, rfl⟩ := Nat.exists_eq_add_of_le' (le_trans (Nat.le_add_left 1 _) hfuel)
    have hheight : max left.height right.height ≤ fuel := Nat.le_of_succ_le_succ hfuel
    rw [IntegerExpr.evaluate, ihleft hplain.1 (le_trans (le_max_left _ _) hheight),
      ihright hplain.2 (le_trans (le_max_right _ _) hheight), IntegerExpr.outcome]
    cases left.outcome with
    | error fault => rfl
    | ok value => cases right.outcome <;> rfl
  | parenthesizedExpr operand ih =>
    obtain ⟨fuel, rfl⟩ := Nat.exists_eq_add_of_le' (le_trans (Nat.le_add_left 1 _) hfuel)
    exact ih hplain (Nat.le_of_succ_le_succ hfuel)
  | integerExprRef node => exact absurd hplain id

/-- The operation where its result fits in 32 bits. -/
def Operator.fitting (kind : Operator) (left right : Nat) : Option Nat :=
  (kind.onNat left right).bind fun value => if value < uint32Size then some value else none

theorem valueOf_evaluate (kind : Operator) (left right : UInt32) :
    valueOf (kind.evaluate left right) = kind.fitting left.toNat right.toNat := by
  have hvalue := kind.evaluate_eq_ok_iff left right
  have hfitting : kind.fitting left.toNat right.toNat = (kind.value left right).map UInt32.toNat := by
    rw [Operator.fitting, Operator.value]
    cases kind.onNat left.toNat right.toNat with
    | none => rfl
    | some value =>
      by_cases hfits : value < uint32Size
      · simp only [Option.bind_some]
        rw [if_pos hfits, if_pos (show value < UInt32.size from hfits), Option.map_some,
          UInt32.toNat_ofNat_of_lt' hfits]
      · simp only [Option.bind_some]
        rw [if_neg hfits, if_neg (show ¬value < UInt32.size from hfits), Option.map_none]
  rw [hfitting]
  cases heval : kind.evaluate left right with
  | ok value =>
    rw [(hvalue value).mp heval]
    rfl
  | error fault =>
    cases hresult : kind.value left right with
    | none => rfl
    | some value =>
      rw [(hvalue value).mpr hresult] at heval
      cases heval

end AST

namespace Icl

open AST (IntegerExpr Operator)
open Fuel OperatorChains

/-! ### Meanings of phrases -/

/-- The results of an `add_operator`, and of a `mult_operator`. -/
def addResult (op : AddOperator) : Nat → Nat → Option Nat := op.kind.fitting

def multResult (op : MultOperator) : Nat → Nat → Option Nat := op.kind.fitting

def Literal.value (literal : Literal) : Option Nat :=
  if literal.number < uint32Size then some literal.number else none

/-- What a phrase is made of: the operands of a term or of an expression, and a value otherwise. -/
abbrev Operands : Nonterminal → Type
  | .integerArgExpr => Option Nat
  | .integerTermExpr => Chain MultOperator Nat
  | .integerExpr => Chain AddOperator Nat

namespace Phrase

variable {s : Nonterminal}

/-- The operands with their conventional values: operators of equal precedence group from the left. -/
def operands : {s : Nonterminal} → Phrase Literal s → Operands s
  | _, posInt literal => literal.value
  | _, factor expr => leftValue addResult expr.operands
  | _, arg a => .single a.operands
  | _, mult lhs op rhs => .cons lhs.operands op rhs.operands
  | _, term t => .single (leftValue multResult t.operands)
  | _, add lhs op rhs => .cons (leftValue multResult lhs.operands) op rhs.operands

/-- The conventional value of an expression. -/
def conventional (p : Phrase Literal .integerExpr) : Option Nat := leftValue addResult p.operands

def treeValue : {s : Nonterminal} → Phrase Literal s → Option Nat
  | _, posInt literal => literal.value
  | _, factor expr => expr.treeValue
  | _, arg a => a.treeValue
  | _, mult lhs op rhs => combine multResult op lhs.treeValue rhs.treeValue
  | _, term t => t.treeValue
  | _, add lhs op rhs => combine addResult op lhs.treeValue rhs.treeValue

theorem valueOf_binary (kind : Operator) (lhs rhs : Except Fault IntegerExpr) :
    valueOf ((do
      let lhs ← lhs
      let rhs ← rhs
      pure (IntegerExpr.integerBinaryExpr kind lhs rhs)) >>= IntegerExpr.outcome) =
      combine (fun _ : Unit => kind.fitting) () (valueOf (lhs >>= IntegerExpr.outcome))
        (valueOf (rhs >>= IntegerExpr.outcome)) := by
  cases lhs with
  | error fault => rfl
  | ok left =>
    cases rhs with
    | error fault => exact (combine_none_right _ _).symm
    | ok right =>
      change valueOf (left.outcome >>= fun l => right.outcome >>= fun r => kind.evaluate l r) =
        combine _ _ (valueOf left.outcome) (valueOf right.outcome)
      cases left.outcome with
      | error fault => rfl
      | ok l =>
        cases right.outcome with
        | error fault => exact (combine_none_right _ _).symm
        | ok r => exact AST.valueOf_evaluate kind l r

theorem valueOf_tree (p : Phrase Literal s) :
    valueOf (p.tree >>= IntegerExpr.outcome) = p.treeValue := by
  induction p with
  | posInt literal =>
    rw [tree, treeValue, Literal.value]
    by_cases hfits : literal.number < uint32Size
    · rw [integerLiteral_fits literal hfits, if_pos hfits]
      exact congrArg some (UInt32.toNat_ofNat_of_lt' hfits)
    · obtain ⟨fault, hfault⟩ := integerLiteral_throws literal (Nat.le_of_not_lt hfits)
      rw [hfault, if_neg hfits]
      rfl
  | factor expr ih =>
    rw [treeValue, ← ih, tree]
    cases expr.tree <;> rfl
  | arg a ih => exact ih
  | mult lhs op rhs ihlhs ihrhs =>
    rw [treeValue, ← ihlhs, ← ihrhs]
    exact valueOf_binary op.kind lhs.tree rhs.tree
  | term t ih => exact ih
  | add lhs op rhs ihlhs ihrhs =>
    rw [treeValue, ← ihlhs, ← ihrhs]
    exact valueOf_binary op.kind lhs.tree rhs.tree

theorem evaluation_ends (p : Phrase Literal .integerExpr) :
    Ends (fun fuel => (evaluation fuel p.tokens).run) (p.tree >>= IntegerExpr.outcome) := by
  cases htree : p.tree with
  | error fault =>
    refine ⟨p.depth, fun fuel hfuel => ?_⟩
    change (evaluation fuel p.tokens).run = _
    rw [evaluation, p.read_eq hfuel, htree]
    rfl
  | ok tree =>
    refine ⟨max p.depth tree.height, fun fuel hfuel => ?_⟩
    have hplain := (p.printed_meets htree).1
    change (evaluation fuel p.tokens).run = _
    rw [evaluation, p.read_eq (le_trans (le_max_left _ _) hfuel), htree, orThrow_ok_bind,
      AST.evaluate_eq_outcome hplain (le_trans (le_max_right _ _) hfuel)]
    rfl

end Phrase

end Icl

end Mast
