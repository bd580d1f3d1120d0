import Mathlib.Data.Option.Basic

/-!
# Chains of operators

Operands with operators between them have a value once it is said how they are grouped: from the left, as arithmetic groups operators of equal precedence, or from the right, as a right-recursive grammar does. An operator may have no result, and then neither has what it is an operand of.

Both groupings have the same value where the operators associate, and a chain has no value from the right as soon as one of its tails has none.
-/

namespace OperatorChains

variable {ω α : Type*} (apply : ω → α → α → Option α)

/-- Operands that may have no value, and the operators before all but the first. -/
structure Chain (ω α : Type*) where
  first : Option α
  rest : List (ω × Option α)

def Chain.single (a : Option α) : Chain ω α := ⟨a, []⟩

def Chain.cons (a : Option α) (op : ω) (chain : Chain ω α) : Chain ω α :=
  ⟨a, (op, chain.first) :: chain.rest⟩

/-- An operator between operands that may have no value. -/
def combine (op : ω) (x y : Option α) : Option α := x.bind fun a => y.bind fun b => apply op a b

def leftValue (chain : Chain ω α) : Option α :=
  chain.rest.foldl (fun value operand => combine apply operand.1 value operand.2) chain.first

def rightFold : Option α → List (ω × Option α) → Option α
  | a, [] => a
  | a, (op, b) :: rest => combine apply op a (rightFold b rest)

def rightValue (chain : Chain ω α) : Option α := rightFold apply chain.first chain.rest

variable {apply}

@[simp] theorem combine_some (op : ω) (a b : α) :
    combine apply op (some a) (some b) = apply op a b := rfl

@[simp] theorem combine_none_left (op : ω) (y : Option α) : combine apply op none y = none := rfl

@[simp] theorem combine_none_right (op : ω) (x : Option α) : combine apply op x none = none := by
  cases x <;> rfl

@[simp] theorem leftValue_single (a : Option α) : leftValue apply (.single a) = a := rfl

@[simp] theorem rightValue_single (a : Option α) : rightValue apply (.single a) = a := rfl

@[simp] theorem rightValue_cons (a : Option α) (op : ω) (chain : Chain ω α) :
    rightValue apply (.cons a op chain) = combine apply op a (rightValue apply chain) := rfl

/-! ### Operators that associate -/

/-- The results of the operator do not depend on how three operands are grouped. -/
def Associates (apply : ω → α → α → Option α) (op : ω) : Prop :=
  ∀ x y z, combine apply op (combine apply op x y) z = combine apply op x (combine apply op y z)

private theorem foldl_combine {op : ω} (hassoc : Associates apply op) (rest : List (ω × Option α))
    (hrest : ∀ operand ∈ rest, operand.1 = op) (x y : Option α) :
    rest.foldl (fun value operand => combine apply operand.1 value operand.2)
      (combine apply op x y) =
      combine apply op x
        (rest.foldl (fun value operand => combine apply operand.1 value operand.2) y) := by
  induction rest generalizing y with
  | nil => rfl
  | cons operand rest ih =>
    rw [List.foldl_cons, List.foldl_cons, hrest operand List.mem_cons_self, hassoc]
    exact ih (fun other hother => hrest other (List.mem_cons_of_mem _ hother)) _

/-- A chain of one operator that associates. -/
theorem leftValue_eq_rightValue {op : ω} (hassoc : Associates apply op) (chain : Chain ω α)
    (hchain : ∀ operand ∈ chain.rest, operand.1 = op) :
    leftValue apply chain = rightValue apply chain := by
  obtain ⟨first, rest⟩ := chain
  change ∀ operand ∈ rest, operand.1 = op at hchain
  change rest.foldl _ first = rightFold apply first rest
  induction rest generalizing first with
  | nil => rfl
  | cons operand rest ih =>
    have hop := hchain operand List.mem_cons_self
    have hrest : ∀ other ∈ rest, other.1 = op :=
      fun other hother => hchain other (List.mem_cons_of_mem _ hother)
    rw [List.foldl_cons, hop, foldl_combine hassoc rest hrest, ih operand.2 hrest]
    exact (congrArg (fun o => combine apply o first (rightFold apply operand.2 rest)) hop).symm

/-! ### Operands of known values -/

/-- The chain of operands that all have values. -/
def Chain.ofValues (first : α) (rest : List (ω × α)) : Chain ω α :=
  ⟨some first, rest.map fun operand => (operand.1, some operand.2)⟩

theorem leftValue_step {a b c : α} {op : ω} (hresult : apply op a b = some c)
    (rest : List (ω × α)) :
    leftValue apply (.ofValues a ((op, b) :: rest)) = leftValue apply (.ofValues c rest) := by
  change List.foldl _ (apply op a b) _ = _
  rw [hresult]
  rfl

theorem rightValue_step (a b : α) (op : ω) (rest : List (ω × α)) :
    rightValue apply (.ofValues a ((op, b) :: rest)) =
      combine apply op (some a) (rightValue apply (.ofValues b rest)) := rfl

def Neutral (apply : ω → α → α → Option α) (a : α) (operand : ω × α) : Prop :=
  apply operand.1 a operand.2 = some a

theorem leftValue_neutral {first : α} {rest : List (ω × α)}
    (hrest : ∀ operand ∈ rest, Neutral apply first operand) :
    leftValue apply (.ofValues first rest) = some first := by
  induction rest with
  | nil => rfl
  | cons operand rest ih =>
    rw [leftValue_step (hrest operand List.mem_cons_self)]
    exact ih fun other hother => hrest other (List.mem_cons_of_mem _ hother)

/-- A tail that has no value after any operand. -/
theorem rightValue_none_of_tail {tail : List (ω × α)}
    (htail : ∀ a, rightValue apply (.ofValues a tail) = none) (first : α) (rest : List (ω × α)) :
    rightValue apply (.ofValues first (rest ++ tail)) = none := by
  induction rest generalizing first with
  | nil => exact htail first
  | cons operand rest ih =>
    rw [List.cons_append, rightValue_step, ih, combine_none_right]

end OperatorChains
