import Mast.Icl.IntegerMeaning

/-!
# When grouping from the right does no harm

An expression is a chain of operators over operands that may be expressions in parentheses. Where such a chain has one operator at most, or is a sum, the tree of the parser has the conventional value. In every other chain it has not, for some literals: the operands are given values for which the two groupings differ, through the parentheses around them.
-/

namespace Mast

namespace Icl

open AST (IntegerExpr Operator)
open Fuel OperatorChains

namespace Phrase

variable {α β : Type} {s : Nonterminal}

/-! ### The parts of an expression -/

/-- The operands of an expression and the expressions in parentheses in it, at every depth. -/
def parts : {s : Nonterminal} → Phrase α s → List (Phrase α .integerExpr)
  | _, posInt _ => []
  | _, factor expr => expr :: expr.parts
  | _, arg a => a.parts
  | _, mult lhs _ rhs => lhs.parts ++ rhs.parts
  | _, term t => term t :: t.parts
  | _, add lhs _ rhs => term lhs :: (lhs.parts ++ rhs.parts)

def addOperators : {s : Nonterminal} → Phrase α s → List AddOperator
  | _, add _ op rhs => op :: rhs.addOperators
  | _, _ => []

def multOperators : {s : Nonterminal} → Phrase α s → List MultOperator
  | _, mult _ op rhs => op :: rhs.multOperators
  | _, _ => []

/-- A product has one operator at most; a sum has one at most, or only additions. -/
def GroupsAlike : Phrase α .integerExpr → Prop
  | term t => t.multOperators.length ≤ 1
  | add lhs op rhs =>
    (add lhs op rhs).addOperators.length ≤ 1 ∨ ∀ o ∈ (add lhs op rhs).addOperators, o = .plus

def arrangement : {s : Nonterminal} → Phrase α s → Phrase Unit s := map fun _ => ()

/-! ### Agreement of the values -/

/-- The tree of the parser has the conventional value, or both have none. -/
def Agrees (p : Phrase Literal .integerExpr) : Prop := p.treeValue = p.conventional

/-- The value of the operands grouped from the right. -/
def rightGrouped : {s : Nonterminal} → Operands s → Option Nat
  | .integerArgExpr, value => value
  | .integerTermExpr, chain => rightValue multResult chain
  | .integerExpr, chain => rightValue addResult chain

theorem rightGrouped_eq (p : Phrase Literal s) (hparts : ∀ part ∈ p.parts, part.Agrees) :
    rightGrouped p.operands = p.treeValue := by
  induction p with
  | posInt literal => rfl
  | factor expr ih => exact (hparts expr List.mem_cons_self).symm
  | arg a ih => exact ih hparts
  | mult lhs op rhs ihlhs ihrhs =>
    rw [treeValue, ← ihlhs fun part h => hparts part (List.mem_append_left _ h),
      ← ihrhs fun part h => hparts part (List.mem_append_right _ h)]
    rfl
  | term t ih => exact (hparts (term t) List.mem_cons_self).symm
  | add lhs op rhs ihlhs ihrhs =>
    have hlhs : lhs.treeValue = leftValue multResult lhs.operands :=
      hparts (term lhs) List.mem_cons_self
    rw [treeValue, hlhs, ← ihrhs fun part h =>
      hparts part (List.mem_cons_of_mem _ (List.mem_append_right _ h))]
    rfl

theorem agrees_term_iff {t : Phrase Literal .integerTermExpr}
    (hparts : ∀ part ∈ t.parts, part.Agrees) :
    (term t).Agrees ↔ rightValue multResult t.operands = leftValue multResult t.operands := by
  have hright : rightValue multResult t.operands = t.treeValue := rightGrouped_eq t hparts
  rw [hright]
  rfl

theorem agrees_iff {p : Phrase Literal .integerExpr} (hparts : ∀ part ∈ p.parts, part.Agrees) :
    p.Agrees ↔ rightValue addResult p.operands = leftValue addResult p.operands := by
  have hright : rightValue addResult p.operands = p.treeValue := rightGrouped_eq p hparts
  rw [hright]
  rfl

theorem addResult_plus (a b : Nat) :
    addResult .plus a b = if a + b < uint32Size then some (a + b) else none := rfl

/-- Additions that fit in 32 bits associate. -/
theorem plus_associates : Associates addResult .plus := by
  have hsome : ∀ a b c, combine addResult .plus (addResult .plus a b) (some c) =
      combine addResult .plus (some a) (addResult .plus b c) := by
    intro a b c
    rw [addResult_plus, addResult_plus]
    by_cases htotal : a + b + c < uint32Size
    · rw [if_pos (by omega), if_pos (by omega), combine_some, combine_some, addResult_plus,
        addResult_plus, if_pos htotal, if_pos (by omega), Nat.add_assoc]
    · have hleft : combine addResult .plus (if a + b < uint32Size then some (a + b) else none)
          (some c) = none := by
        split_ifs
        · exact if_neg htotal
        · rfl
      have hright : combine addResult .plus (some a)
          (if b + c < uint32Size then some (b + c) else none) = none := by
        split_ifs
        · exact if_neg (by omega)
        · rfl
      rw [hleft, hright]
  intro x y z
  cases x with
  | none => rfl
  | some a =>
    cases y with
    | none => rfl
    | some b =>
      cases z with
      | none => exact (combine_none_right _ _).trans (combine_none_right _ _).symm
      | some c => exact hsome a b c

theorem operands_addOperators :
    (p : Phrase Literal .integerExpr) → p.operands.rest.map (·.1) = p.addOperators
  | term _ => rfl
  | add _ op rhs => congrArg (op :: ·) (operands_addOperators rhs)

theorem agrees_term_of_alike {t : Phrase Literal .integerTermExpr}
    (hparts : ∀ part ∈ t.parts, part.Agrees) (halike : (term t).GroupsAlike) : (term t).Agrees := by
  rw [agrees_term_iff hparts]
  cases t with
  | arg a => rfl
  | mult lhs op rhs =>
    cases rhs with
    | arg a => rfl
    | mult b op' c =>
      have hlength : c.multOperators.length + 2 ≤ 1 := halike
      omega

theorem agrees_of_alike {p : Phrase Literal .integerExpr} (hparts : ∀ part ∈ p.parts, part.Agrees)
    (halike : p.GroupsAlike) : p.Agrees := by
  cases p with
  | term t => exact hparts (term t) List.mem_cons_self
  | add lhs op rhs =>
    rw [agrees_iff hparts]
    rcases halike with hlength | hplus
    · cases rhs with
      | term t => rfl
      | add t op' rest =>
        have hlength : rest.addOperators.length + 2 ≤ 1 := hlength
        omega
    · refine (leftValue_eq_rightValue plus_associates _ fun operand hoperand => ?_).symm
      apply hplus
      rw [← operands_addOperators]
      exact List.mem_map_of_mem hoperand

theorem parts_agree (p : Phrase Literal s) (halike : ∀ part ∈ p.parts, part.GroupsAlike) :
    ∀ part ∈ p.parts, part.Agrees := by
  induction p with
  | posInt literal => exact fun part hpart => absurd hpart List.not_mem_nil
  | factor expr ih =>
    have hrest := ih fun part h => halike part (List.mem_cons_of_mem _ h)
    intro part hpart
    rcases List.mem_cons.mp hpart with rfl | hpart
    · exact agrees_of_alike hrest (halike part List.mem_cons_self)
    · exact hrest part hpart
  | arg a ih => exact ih halike
  | mult lhs op rhs ihlhs ihrhs =>
    intro part hpart
    rcases List.mem_append.mp hpart with hpart | hpart
    · exact ihlhs (fun part h => halike part (List.mem_append_left _ h)) part hpart
    · exact ihrhs (fun part h => halike part (List.mem_append_right _ h)) part hpart
  | term t ih =>
    have hrest := ih fun part h => halike part (List.mem_cons_of_mem _ h)
    intro part hpart
    rcases List.mem_cons.mp hpart with rfl | hpart
    · exact agrees_term_of_alike hrest (halike _ List.mem_cons_self)
    · exact hrest part hpart
  | add lhs op rhs ihlhs ihrhs =>
    have hleft := ihlhs fun part h =>
      halike part (List.mem_cons_of_mem _ (List.mem_append_left _ h))
    have hright := ihrhs fun part h =>
      halike part (List.mem_cons_of_mem _ (List.mem_append_right _ h))
    intro part hpart
    rcases List.mem_cons.mp hpart with rfl | hpart
    · exact agrees_term_of_alike hleft (halike _ List.mem_cons_self)
    · rcases List.mem_append.mp hpart with hpart | hpart
      · exact hleft part hpart
      · exact hright part hpart

/-! ### Arrangements -/

theorem parts_map (f : α → β) (p : Phrase α s) :
    (p.map f).parts = p.parts.map fun part => part.map f := by
  induction p with
  | posInt literal => rfl
  | factor expr ih => exact congrArg (expr.map f :: ·) ih
  | arg a ih => exact ih
  | mult lhs op rhs ihlhs ihrhs =>
    rw [parts, List.map_append, ← ihlhs, ← ihrhs]
    rfl
  | term t ih => exact congrArg ((term t).map f :: ·) ih
  | add lhs op rhs ihlhs ihrhs =>
    rw [parts, List.map_cons, List.map_append, ← ihlhs, ← ihrhs]
    rfl

theorem addOperators_map (f : α → β) :
    (p : Phrase α .integerExpr) → (p.map f).addOperators = p.addOperators
  | term _ => rfl
  | add _ op rhs => congrArg (op :: ·) (addOperators_map f rhs)

theorem multOperators_map (f : α → β) :
    (t : Phrase α .integerTermExpr) → (t.map f).multOperators = t.multOperators
  | arg _ => rfl
  | mult _ op rhs => congrArg (op :: ·) (multOperators_map f rhs)

theorem groupsAlike_map_iff (f : α → β) (p : Phrase α .integerExpr) :
    (p.map f).GroupsAlike ↔ p.GroupsAlike := by
  cases p with
  | term t =>
    change (t.map f).multOperators.length ≤ 1 ↔ t.multOperators.length ≤ 1
    rw [multOperators_map]
  | add lhs op rhs =>
    have hops := addOperators_map f (add lhs op rhs)
    change (((add lhs op rhs).map f).addOperators.length ≤ 1 ∨
      ∀ o ∈ ((add lhs op rhs).map f).addOperators, o = .plus) ↔ _
    rw [hops]
    rfl

/-- The condition on all parts is one on the arrangement. -/
theorem parts_alike_of_arrangement {p source : Phrase Literal .integerExpr}
    (harrangement : p.arrangement = source.arrangement)
    (halike : ∀ part ∈ source :: source.parts, part.GroupsAlike) :
    ∀ part ∈ p :: p.parts, part.GroupsAlike := by
  have hparts : (p :: p.parts).map arrangement = (source :: source.parts).map arrangement := by
    rw [List.map_cons, List.map_cons, harrangement]
    refine congrArg _ ?_
    exact (parts_map _ p).symm.trans ((congrArg parts harrangement).trans (parts_map _ source))
  intro part hpart
  have hmem : part.arrangement ∈ (source :: source.parts).map arrangement :=
    hparts ▸ List.mem_map_of_mem hpart
  obtain ⟨other, hother, heq⟩ := List.mem_map.mp hmem
  rw [← groupsAlike_map_iff fun _ => ()]
  change part.arrangement.GroupsAlike
  rw [← heq]
  exact (groupsAlike_map_iff _ other).mpr (halike other hother)

end Phrase

end Icl

end Mast
