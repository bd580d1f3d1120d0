import Mast.BinaryVector.Print
import Mast.Lib.Program
import Mast.Lib.TermGraph

/-!
# Integer expressions of a network

An ICL parameter is defined by an integer expression, and so are the indices of ports and registers. An expression may refer to parameters: an `AST_IntegerExprRef` holds the name of a parameter until it is resolved, and then the expression that defines the parameter. These are the only nodes that change, so expressions are values and refer to these nodes by their position. Two expressions share a node when they hold the same position.
-/

namespace Mast

namespace AST

open BinaryVector (Text decimal)
open Fuel Program TermGraph

/-- The kinds of an `AST_IntegerBinaryExpr`. -/
inductive Operator
  | add
  | substract
  | multiply
  | divide
  | modulo
  deriving DecidableEq, Repr

inductive IntegerExpr
  | integerLiteral (value : UInt32)
  | integerBinaryExpr (kind : Operator) (left right : IntegerExpr)
  | parenthesizedExpr (operand : IntegerExpr)
  | integerExprRef (node : Nat)
  deriving DecidableEq, Repr

structure IntegerExprRef where
  parameterRef : Option String
  integerExpr : Option IntegerExpr
  deriving DecidableEq, Repr

/-- The references created so far, by their position. -/
abbrev Nodes := List IntegerExprRef

/-- A `Parameter` or `LocalParameter` whose number is an integer expression. -/
structure Parameter where
  name : String
  number : IntegerExpr
  deriving DecidableEq, Repr

/-- The indices of an `AST_VectorIdentifier`. -/
structure VectorIdentifier where
  left : Option IntegerExpr
  right : Option IntegerExpr
  deriving DecidableEq, Repr

/-! ### Operators -/

/-- `AST_IntegerBinaryExpr::Evaluate`, once the operands are evaluated. -/
def Operator.evaluate : Operator → UInt32 → UInt32 → Except Fault UInt32
  | .add, left, right =>
    let result := left + right
    if result ≥ left then .ok result
    else .error (.runtimeError s!"Cannot add values '{left}' and '{right}' without an overflow")
  | .substract, left, right =>
    if left ≥ right then .ok (left - right)
    else .error (.runtimeError s!"Cannot substract value '{right}' from value '{left}'")
  | .multiply, left, right =>
    let tmpResult := left.toUInt64 * right.toUInt64
    if tmpResult ≤ 0xFFFFFFFF then .ok tmpResult.toUInt32
    else
      .error (.runtimeError s!"Cannot multiply values '{left}' and '{right}' without an overflow")
  | .divide, left, right =>
    if right ≠ 0 then .ok (left / right)
    else .error (.runtimeError s!"Cannot divide value '{left}' by 0'")
  | .modulo, left, right =>
    if right ≠ 0 then .ok (left % right)
    else .error (.runtimeError s!"Cannot compute the modulo of value '{left}' by 0'")

/-! ### Text -/

/-- The operator as `AsText` writes it, between blanks. -/
def Operator.text : Operator → Char
  | .add => '+'
  | .substract => '-'
  | .multiply => '*'
  | .divide => '/'
  | .modulo => '%'

def IntegerExpr.isLiteral : IntegerExpr → Bool
  | .integerLiteral _ => true
  | _ => false

/-- `AsText`, which follows the references that are resolved and need not end. -/
def IntegerExpr.asTextIn (nodes : Nodes) : Nat → IntegerExpr → ExceptT Fault Option Text
  | 0, _ => (none : Option (Except Fault Text))
  | _ + 1, .integerLiteral value => pure (decimal value.toNat)
  | fuel + 1, .integerBinaryExpr kind left right => do
    let left ← left.asTextIn nodes fuel
    let right ← right.asTextIn nodes fuel
    pure (left ++ ' ' :: kind.text :: ' ' :: right)
  | fuel + 1, .parenthesizedExpr operand => do
    let operand ← operand.asTextIn nodes fuel
    pure ('(' :: operand ++ [')'])
  | fuel + 1, .integerExprRef node =>
    match nodes[node]? with
    | none => throw .undefinedBehaviour
    | some ⟨some name, _⟩ => pure ('$' :: name.toList)
    | some ⟨none, some integerExpr⟩ => do
      let asText ← integerExpr.asTextIn nodes fuel
      pure (if integerExpr.isLiteral then asText else '(' :: asText ++ [')'])
    | some ⟨none, none⟩ => throw (.runtimeError
        "Houps: must handle either a parameter reference, an integer expression or a concatenated number")

/-- `AST_Parameter::AsText`. -/
def Parameter.asText (nodes : Nodes) (fuel : Nat) (parameter : Parameter) :
    ExceptT Fault Option Text := do
  let number ← parameter.number.asTextIn nodes fuel
  pure (parameter.name.toList ++ ' ' :: '=' :: ' ' :: number)

/-! ### Evaluation -/

def notResolved : Fault :=
  .runtimeError "Cannot evaluate from not yet resolved Parameter Reference or a concatenated number"

def IntegerExpr.evaluate (nodes : Nodes) : Nat → IntegerExpr → ExceptT Fault Option UInt32
  | 0, _ => (none : Option (Except Fault UInt32))
  | _ + 1, .integerLiteral value => pure value
  | fuel + 1, .integerBinaryExpr kind left right => do
    let left ← left.evaluate nodes fuel
    let right ← right.evaluate nodes fuel
    (some (kind.evaluate left right) : Option (Except Fault UInt32))
  | fuel + 1, .parenthesizedExpr operand => operand.evaluate nodes fuel
  | fuel + 1, .integerExprRef node =>
    match nodes[node]? with
    | none => throw .undefinedBehaviour
    | some ⟨_, some integerExpr⟩ => integerExpr.evaluate nodes fuel
    | some ⟨_, none⟩ => throw notResolved

/-! ### Resolution -/

def IntegerExpr.hasParameterRef (nodes : Nodes) : IntegerExpr → Bool
  | .integerLiteral _ => false
  | .integerBinaryExpr _ left right => left.hasParameterRef nodes || right.hasParameterRef nodes
  | .parenthesizedExpr operand => operand.hasParameterRef nodes
  | .integerExprRef node => (nodes[node]?.bind (·.parameterRef)).isSome

def find (name : String) (parameters : List Parameter) : Option Parameter :=
  parameters.find? (·.name = name)

/-- `AST_Parameter::LocateParameterDef`. -/
def locateParameterDef (name : String) (parameters : List Parameter) :
    Step Nodes Fault Parameter :=
  match find name parameters with
  | some parameter => pure parameter
  | none => throw (.runtimeError
      s!"Parameter reference \"{name}\" cannot be resolved with a parameter value")

/-- `AST_IntegerExprRef::Resolve`. The text of the parameter is made for the message of a check, before the check. -/
def IntegerExprRef.resolve (fuel : Nat) (parameters : List Parameter) (node : Nat) :
    Step Nodes Fault Unit := do
  let nodes ← get
  match nodes[node]? with
  | none => throw .undefinedBehaviour
  | some ⟨none, _⟩ => pure ()
  | some ⟨some name, _⟩ => do
    let parameter ← locateParameterDef name parameters
    let _ ← liftM (parameter.asText nodes fuel)
    set (nodes.set node ⟨none, some parameter.number⟩)

def IntegerExpr.resolve (fuel : Nat) (parameters : List Parameter) :
    IntegerExpr → Step Nodes Fault Unit
  | .integerLiteral _ => pure ()
  | .integerBinaryExpr _ left right => do
    left.resolve fuel parameters
    right.resolve fuel parameters
  | .parenthesizedExpr operand => operand.resolve fuel parameters
  | .integerExprRef node => IntegerExprRef.resolve fuel parameters node

/-- What the owners of an expression do: they leave it alone when it has no parameter reference. -/
def IntegerExpr.resolveReferences (fuel : Nat) (parameters : List Parameter) (expr : IntegerExpr) :
    Step Nodes Fault Unit := do
  let nodes ← get
  if expr.hasParameterRef nodes then expr.resolve fuel parameters else pure ()

/-! ### Cloning -/

def IntegerExpr.uniquifiedClone : Nat → IntegerExpr → Step Nodes Fault IntegerExpr
  | 0, _ => fun _ => (none : Option _)
  | _ + 1, .integerLiteral value => pure (.integerLiteral value)
  | fuel + 1, .integerBinaryExpr kind left right => do
    let left ← left.uniquifiedClone fuel
    let right ← right.uniquifiedClone fuel
    pure (.integerBinaryExpr kind left right)
  | fuel + 1, .parenthesizedExpr operand => do
    let operand ← operand.uniquifiedClone fuel
    pure (.parenthesizedExpr operand)
  | fuel + 1, .integerExprRef node => do
    let nodes ← get
    match nodes[node]? with
    | none => throw .undefinedBehaviour
    | some ⟨parameterRef, none⟩ => do
      set (nodes ++ [⟨parameterRef, none⟩])
      pure (.integerExprRef nodes.length)
    | some ⟨parameterRef, some integerExpr⟩ => do
      set (nodes ++ [⟨parameterRef, some integerExpr⟩])
      let integerExpr ← integerExpr.uniquifiedClone fuel
      modify fun later => later.set nodes.length ⟨parameterRef, some integerExpr⟩
      pure (.integerExprRef nodes.length)

/-- What the owners of an expression do: they keep it when it has no parameter reference. -/
def IntegerExpr.cloneReferences (fuel : Nat) (expr : IntegerExpr) :
    Step Nodes Fault IntegerExpr := do
  let nodes ← get
  if expr.hasParameterRef nodes then expr.uniquifiedClone fuel else pure expr

/-- `AST_Parameter::Resolve`, through the number of the parameter. -/
def Parameter.resolve (fuel : Nat) (parameters : List Parameter) (parameter : Parameter) :
    Step Nodes Fault Unit :=
  parameter.number.resolveReferences fuel parameters

/-- `AST_Parameter::UniquifiedClone`, for those that have a parameter reference. -/
def Parameter.cloneReferences (fuel : Nat) (parameter : Parameter) :
    Step Nodes Fault Parameter := do
  let number ← parameter.number.cloneReferences fuel
  pure { parameter with number }

def resolveIndex (fuel : Nat) (parameters : List Parameter) :
    Option IntegerExpr → Step Nodes Fault Unit
  | none => pure ()
  | some index => index.resolveReferences fuel parameters

/-- `AST_VectorIdentifier::Resolve`. -/
def VectorIdentifier.resolve (fuel : Nat) (parameters : List Parameter)
    (identifier : VectorIdentifier) : Step Nodes Fault Unit := do
  resolveIndex fuel parameters identifier.left
  resolveIndex fuel parameters identifier.right

def cloneIndex (fuel : Nat) : Option IntegerExpr → Step Nodes Fault (Option IntegerExpr)
  | none => pure none
  | some index => do
    let index ← index.cloneReferences fuel
    pure (some index)

/-- `AST_VectorIdentifier::UniquifiedClone`. -/
def VectorIdentifier.uniquifiedClone (fuel : Nat) (identifier : VectorIdentifier) :
    Step Nodes Fault VectorIdentifier := do
  let left ← cloneIndex fuel identifier.left
  let right ← cloneIndex fuel identifier.right
  pure { left, right }

end AST

end Mast
