import Mast.Icl.IntegerGrouping

/-!
# Integer expressions and arithmetic

For which arrangements of operators and parentheses every choice of literals is evaluated as arithmetic says: those whose products have one operator at most and whose sums have one at most or only additions. For any other chain there are small operands that the two groupings tell apart, and operands in parentheses can be given any small value.
-/

namespace Mast

namespace Icl

open AST (IntegerExpr Operator)
open Fuel OperatorChains

/-! ### Operands that tell the groupings apart -/

section Operands

theorem add_neutral (op : AddOperator) {n : Nat} (hn : n < uint32Size) :
    Neutral addResult n (op, 0) := by
  cases op with
  | plus => exact if_pos hn
  | minus => exact if_pos hn

theorem rightValue_zeros {n : Nat} (hn : n < uint32Size) (ops : List AddOperator) :
    rightValue addResult (.ofValues n (ops.map (·, 0))) = some n := by
  induction ops generalizing n with
  | nil => rfl
  | cons op ops ih =>
    rw [List.map_cons, rightValue_step, ih (by decide)]
    exact add_neutral op hn

theorem leftValue_zeros {n : Nat} (hn : n < uint32Size) (ops : List AddOperator) :
    leftValue addResult (.ofValues n (ops.map (·, 0))) = some n := by
  refine leftValue_neutral fun operand hoperand => ?_
  obtain ⟨op, -, rfl⟩ := List.mem_map.mp hoperand
  exact add_neutral op hn

/-- Operands of a chain with the given operators, for which it has a value only when it is grouped from the left. -/
def Separates {ω : Type} (apply : ω → Nat → Nat → Option Nat) (bound : Nat) (ops : List ω)
    (first : Nat) (rest : List (ω × Nat)) : Prop :=
  rest.map (·.1) = ops ∧ first ≤ bound ∧ (∀ operand ∈ rest, operand.2 ≤ bound) ∧
    (leftValue apply (.ofValues first rest)).isSome ∧
    rightValue apply (.ofValues first rest) = none

/-- `1 - 0 - 1` and `0 - 0 + 1`, with zeros after them. -/
theorem minus_separates (op : AddOperator) (ops : List AddOperator) :
    ∃ first rest, Separates addResult 1 (.minus :: op :: ops) first rest := by
  have hops : (ops.map fun o => (o, 0)).map (·.1) = ops := by
    rw [List.map_map]
    exact List.map_id _
  cases op with
  | minus =>
    refine ⟨1, (.minus, 0) :: (.minus, 1) :: ops.map (·, 0), ?_, le_rfl, ?_, ?_, ?_⟩
    · exact congrArg (fun ops => AddOperator.minus :: .minus :: ops) hops
    · simp
    · rw [leftValue_step (c := 1) (by decide), leftValue_step (c := 0) (by decide),
        leftValue_zeros (by decide)]
      rfl
    · rw [rightValue_step, rightValue_step, rightValue_zeros (by decide)]
      decide
  | plus =>
    refine ⟨0, (.minus, 0) :: (.plus, 1) :: ops.map (·, 0), ?_, Nat.zero_le 1, ?_, ?_, ?_⟩
    · exact congrArg (fun ops => AddOperator.minus :: .plus :: ops) hops
    · simp
    · rw [leftValue_step (c := 0) (by decide), leftValue_step (c := 1) (by decide),
        leftValue_zeros (by decide)]
      rfl
    · rw [rightValue_step, rightValue_step, rightValue_zeros (by decide)]
      decide

/-- A sum of three operands or more with a subtraction. -/
theorem sum_separates {ops : List AddOperator} (hlong : 2 ≤ ops.length) (hminus : .minus ∈ ops) :
    ∃ first rest, Separates addResult 1 ops first rest := by
  induction ops with
  | nil => cases hminus
  | cons op ops ih =>
    cases ops with
    | nil => exact absurd hlong (by simp)
    | cons op' ops =>
      cases op with
      | minus => exact minus_separates op' ops
      | plus =>
        have hrest : AddOperator.minus ∈ op' :: ops := by simpa using hminus
        cases ops with
        | nil =>
          obtain rfl : AddOperator.minus = op' := List.mem_singleton.mp hrest
          refine ⟨1, [(.plus, 0), (.minus, 1)], rfl, le_rfl, by simp, by decide, by decide⟩
        | cons op'' ops =>
          obtain ⟨first, rest, hops, hfirst, hbound, hleft, hright⟩ := ih (by simp) hrest
          refine ⟨0, (.plus, first) :: rest, congrArg _ hops, Nat.zero_le 1, ?_, ?_, ?_⟩
          · exact List.forall_mem_cons.mpr ⟨hfirst, hbound⟩
          · have hzero : addResult .plus 0 first = some first := by
              rw [Phrase.addResult_plus, Nat.zero_add]
              exact if_pos (lt_of_le_of_lt hfirst (by decide))
            rw [leftValue_step hzero]
            exact hleft
          · rw [rightValue_step, hright, combine_none_right]

theorem mult_neutral (op : MultOperator) {n : Nat} (hpos : 0 < n) :
    Neutral multResult 0 (op, n) := by
  have hne : n ≠ 0 := Nat.pos_iff_ne_zero.mp hpos
  cases op with
  | star =>
    change Operator.multiply.fitting 0 n = some 0
    rw [Operator.fitting, Operator.onNat, Nat.zero_mul]
    rfl
  | slash =>
    change Operator.divide.fitting 0 n = some 0
    rw [Operator.fitting, Operator.onNat, if_neg hne, Nat.zero_div]
    rfl
  | percent =>
    change Operator.modulo.fitting 0 n = some 0
    rw [Operator.fitting, Operator.onNat, if_neg hne, Nat.zero_mod]
    rfl

/-- A product that starts with a zero, whose tail has no value from the right. -/
theorem tail_separates (pre : List MultOperator) {tail : List (MultOperator × Nat)}
    (hpos : ∀ operand ∈ tail, 0 < operand.2 ∧ operand.2 ≤ 65537)
    (htail : ∀ a, rightValue multResult (.ofValues a tail) = none) :
    ∃ first rest, Separates multResult 65537 (pre ++ tail.map (·.1)) first rest := by
  have hall : ∀ operand ∈ pre.map (fun op => (op, 1)) ++ tail,
      0 < operand.2 ∧ operand.2 ≤ 65537 := by
    intro operand hoperand
    rcases List.mem_append.mp hoperand with hoperand | hoperand
    · obtain ⟨op, -, rfl⟩ := List.mem_map.mp hoperand
      exact ⟨Nat.one_pos, by omega⟩
    · exact hpos operand hoperand
  refine ⟨0, pre.map (·, 1) ++ tail, ?_, Nat.zero_le _, fun o ho => (hall o ho).2, ?_, ?_⟩
  · rw [List.map_append, List.map_map]
    exact congrArg (· ++ tail.map (·.1)) (List.map_id _)
  · rw [leftValue_neutral fun o ho => mult_neutral o.1 (hall o ho).1]
    rfl
  · exact rightValue_none_of_tail htail 0 _

/-- A product of three operands or more, but for `a * b / c` and `a * b % c`. -/
theorem product_separates (pre : List MultOperator) (op op' : MultOperator)
    (hlast : op' = .star ∨ op ≠ .star ∨ pre ≠ []) :
    ∃ first rest, Separates multResult 65537 (pre ++ [op, op']) first rest := by
  by_cases hlaststar : op' = .star
  · subst hlaststar
    have hnone : combine multResult .star (some 65536) (some 65536) = none := by decide
    refine @tail_separates pre [(op, 65536), (.star, 65536)] (by simp) fun a => ?_
    rw [rightValue_step]
    exact (congrArg (combine multResult op (some a)) hnone).trans (combine_none_right _ _)
  · by_cases hstar : op = .star
    · subst hstar
      have hpre : pre ≠ [] := (hlast.resolve_left hlaststar).resolve_left fun h => h rfl
      have hsplit : pre = pre.dropLast ++ [pre.getLast hpre] :=
        (List.dropLast_append_getLast hpre).symm
      have hone : ∃ n, 0 < n ∧ n ≤ 65537 ∧
          combine multResult op' (some 65536) (some n) = some 65536 := by
        cases op' with
        | star => exact absurd rfl hlaststar
        | slash => exact ⟨1, by decide, by decide, by decide⟩
        | percent => exact ⟨65537, by decide, by decide, by decide⟩
      obtain ⟨n, hpos, hbound, hsame⟩ := hone
      have hnone : combine multResult .star (some 65536) (some 65536) = none := by decide
      rw [hsplit, List.append_assoc]
      refine @tail_separates pre.dropLast
        [(pre.getLast hpre, 65536), (.star, 65536), (op', n)] (by simp [hpos, hbound]) fun a => ?_
      have htail : rightValue multResult (.ofValues 65536 [(.star, 65536), (op', n)]) = none :=
        (congrArg (combine multResult .star (some 65536)) hsame).trans hnone
      rw [rightValue_step, htail, combine_none_right]
    · have hone : ∃ n, 0 < n ∧ n ≤ 65537 ∧ combine multResult op' (some 1) (some n) = some 0 := by
        cases op' with
        | star => exact absurd rfl hlaststar
        | slash => exact ⟨2, by decide, by decide, by decide⟩
        | percent => exact ⟨1, by decide, by decide, by decide⟩
      obtain ⟨n, hpos, hbound, hzero⟩ := hone
      have hnone : ∀ a, combine multResult op (some a) (some 0) = none := by
        cases op with
        | star => exact absurd rfl hstar
        | slash => exact fun a => rfl
        | percent => exact fun a => rfl
      refine @tail_separates pre [(op, 1), (op', n)] (by simp [hpos, hbound]) fun a => ?_
      exact (congrArg (combine multResult op (some a)) hzero).trans (hnone a)

/-- Operands, no greater than the bound, to which the groupings give different values. -/
def ToldApart {ω : Type} (apply : ω → Nat → Nat → Option Nat) (bound : Nat) (ops : List ω) : Prop :=
  ∃ first rest, rest.map (·.1) = ops ∧ first ≤ bound ∧ (∀ operand ∈ rest, operand.2 ≤ bound) ∧
    leftValue apply (.ofValues first rest) ≠ rightValue apply (.ofValues first rest)

theorem Separates.toldApart {ω : Type} {apply : ω → Nat → Nat → Option Nat} {bound bound' : Nat}
    {ops : List ω} {first : Nat} {rest : List (ω × Nat)} (hle : bound ≤ bound')
    (hseparates : Separates apply bound ops first rest) : ToldApart apply bound' ops := by
  obtain ⟨hops, hfirst, hrest, hleft, hright⟩ := hseparates
  refine ⟨first, rest, hops, hfirst.trans hle, fun o ho => (hrest o ho).trans hle, ?_⟩
  rw [hright]
  exact Option.isSome_iff_ne_none.mp hleft

theorem sum_toldApart {ops : List AddOperator} (hlong : 2 ≤ ops.length) (hminus : .minus ∈ ops) :
    ToldApart addResult 65537 ops := by
  obtain ⟨first, rest, hseparates⟩ := sum_separates hlong hminus
  exact hseparates.toldApart (by decide)

theorem product_toldApart {ops : List MultOperator} (hlong : 2 ≤ ops.length) :
    ToldApart multResult 65537 ops := by
  have hsplit : ∃ pre op op', ops = pre ++ [op, op'] := by
    have hreverse : ops = ops.reverse.reverse := (List.reverse_reverse ops).symm
    rw [← List.length_reverse] at hlong
    cases hops : ops.reverse with
    | nil => simp [hops] at hlong
    | cons op' rest =>
      cases rest with
      | nil => simp [hops] at hlong
      | cons op pre =>
        refine ⟨pre.reverse, op, op', ?_⟩
        rw [hreverse, hops, List.reverse_cons, List.reverse_cons, List.append_assoc]
        rfl
  obtain ⟨pre, op, op', rfl⟩ := hsplit
  by_cases hlast : op' = .star ∨ op ≠ .star ∨ pre ≠ []
  · obtain ⟨first, rest, hseparates⟩ := product_separates pre op op' hlast
    exact hseparates.toldApart le_rfl
  · -- the product in front overflows where the quotient or the rest is small
    simp only [not_or, not_not] at hlast
    obtain ⟨hop', rfl, rfl⟩ := hlast
    refine ⟨65536, [(.star, 65536), (op', 65536)], rfl, by decide, by simp, ?_⟩
    cases op' with
    | star => exact absurd rfl hop'
    | slash => decide
    | percent => decide

end Operands

namespace Phrase

variable {α : Type} {s : Nonterminal}

/-! ### Giving the operands values -/

/-- How deep chains with a modulo are nested in one another through parentheses. -/
def moduloNesting : {s : Nonterminal} → Phrase α s → Nat
  | _, posInt _ => 0
  | _, factor expr => expr.moduloNesting
  | _, arg a => a.moduloNesting
  | _, mult lhs _ rhs => max lhs.moduloNesting rhs.moduloNesting
  | _, term t => t.moduloNesting + if .percent ∈ t.multOperators then 1 else 0
  | _, add lhs _ rhs =>
    max (lhs.moduloNesting + if .percent ∈ lhs.multOperators then 1 else 0) rhs.moduloNesting

/-- The value leaves room for the divisors in an operand. -/
def Room (n nesting : Nat) : Prop := max n 1 + nesting < uint32Size

/-- A chain of the same arrangement whose operands have the values. -/
def Attains : (s : Nonterminal) → Phrase Literal s → Prop
  | .integerArgExpr, a => ∀ n, Room n a.moduloNesting →
    ∃ a' : Phrase Literal .integerArgExpr, a'.arrangement = a.arrangement ∧ a'.operands = some n
  | .integerTermExpr, t => ∀ first rest, rest.map (·.1) = t.multOperators →
    (∀ n ∈ first :: rest.map (·.2), Room n t.moduloNesting) →
    ∃ t' : Phrase Literal .integerTermExpr,
      t'.arrangement = t.arrangement ∧ t'.operands = Chain.ofValues first rest
  | .integerExpr, p => ∀ first rest, rest.map (·.1) = p.addOperators →
    (∀ n ∈ first :: rest.map (·.2), Room n p.moduloNesting) →
    ∃ p' : Phrase Literal .integerExpr,
      p'.arrangement = p.arrangement ∧ p'.operands = Chain.ofValues first rest

/-- An operand that leaves a product as it is. -/
def neutralOperand (n : Nat) : MultOperator → Nat
  | .percent => n + 1
  | _ => 1

theorem neutralOperand_neutral {n : Nat} (hn : n < uint32Size) (op : MultOperator) :
    Neutral multResult n (op, neutralOperand n op) := by
  cases op with
  | star =>
    change Operator.multiply.fitting n 1 = some n
    rw [Operator.fitting, Operator.onNat, Nat.mul_one]
    exact if_pos hn
  | slash =>
    change Operator.divide.fitting n 1 = some n
    rw [Operator.fitting, Operator.onNat, if_neg (by decide), Nat.div_one]
    exact if_pos hn
  | percent =>
    change Operator.modulo.fitting n (n + 1) = some n
    rw [Operator.fitting, Operator.onNat, if_neg (by omega), Nat.mod_eq_of_lt (by omega)]
    exact if_pos hn

/-- A product can have any value, with a greater divisor in every modulo and ones elsewhere. -/
theorem attains_product {t : Phrase Literal .integerTermExpr} (ht : Attains .integerTermExpr t)
    {n : Nat}
    (hn : Room n (t.moduloNesting + if .percent ∈ t.multOperators then 1 else 0)) :
    ∃ t' : Phrase Literal .integerTermExpr,
      t'.arrangement = t.arrangement ∧ leftValue multResult t'.operands = some n := by
  have hroom : ∀ m ∈ n :: (t.multOperators.map fun op => (op, neutralOperand n op)).map (·.2),
      Room m t.moduloNesting := by
    unfold Room at hn ⊢
    intro m hm
    rw [List.map_map] at hm
    rcases List.mem_cons.mp hm with rfl | hm
    · omega
    · obtain ⟨op, hop, rfl⟩ := List.mem_map.mp hm
      change max (neutralOperand n op) 1 + _ < _
      cases op with
      | percent =>
        rw [if_pos hop] at hn
        change max (n + 1) 1 + _ < _
        omega
      | star =>
        change max 1 1 + _ < _
        omega
      | slash =>
        change max 1 1 + _ < _
        omega
  obtain ⟨t', harrangement, hoperands⟩ := ht n
    (t.multOperators.map fun op => (op, neutralOperand n op))
    (by rw [List.map_map]; exact List.map_id _) hroom
  refine ⟨t', harrangement, ?_⟩
  rw [hoperands]
  refine leftValue_neutral fun operand hoperand => ?_
  obtain ⟨op, -, rfl⟩ := List.mem_map.mp hoperand
  exact neutralOperand_neutral (by unfold Room at hn; omega) op

theorem attains_sum {p : Phrase Literal .integerExpr} (hp : Attains .integerExpr p) {n : Nat}
    (hn : Room n p.moduloNesting) :
    ∃ p' : Phrase Literal .integerExpr,
      p'.arrangement = p.arrangement ∧ p'.conventional = some n := by
  have hroom : ∀ m ∈ n :: (p.addOperators.map fun op => (op, 0)).map (·.2),
      Room m p.moduloNesting := by
    unfold Room at hn ⊢
    intro m hm
    rw [List.map_map] at hm
    rcases List.mem_cons.mp hm with rfl | hm
    · exact hn
    · obtain ⟨op, -, rfl⟩ := List.mem_map.mp hm
      change max 0 1 + _ < _
      omega
  obtain ⟨p', harrangement, hoperands⟩ := hp n (p.addOperators.map (·, 0))
    (by rw [List.map_map]; exact List.map_id _) hroom
  refine ⟨p', harrangement, ?_⟩
  rw [conventional, hoperands]
  exact leftValue_zeros (by unfold Room at hn; omega) _

theorem Room.le {n nesting nesting' : Nat} (hn : Room n nesting) (hle : nesting' ≤ nesting) :
    Room n nesting' :=
  lt_of_le_of_lt (Nat.add_le_add_left hle _) hn

theorem attains (p : Phrase Literal s) : Attains s p := by
  induction p with
  | posInt literal =>
    intro n hn
    refine ⟨posInt (Literal.ofNat n), rfl, ?_⟩
    change (Literal.ofNat n).value = some n
    rw [Literal.value, Literal.number_ofNat, if_pos (by unfold Room at hn; omega)]
  | factor expr ih =>
    intro n hn
    obtain ⟨expr', harrangement, hvalue⟩ := attains_sum ih hn
    exact ⟨factor expr', congrArg factor harrangement, hvalue⟩
  | arg a ih =>
    intro first rest hrest hroom
    obtain rfl := List.map_eq_nil_iff.mp hrest
    obtain ⟨a', harrangement, hvalue⟩ := ih first (hroom first List.mem_cons_self)
    exact ⟨arg a', congrArg arg harrangement, congrArg Chain.single hvalue⟩
  | mult lhs op rhs ihlhs ihrhs =>
    intro first rest hrest hroom
    cases rest with
    | nil => cases hrest
    | cons operand rest =>
      obtain ⟨hop, hrest⟩ := List.cons.inj hrest
      obtain ⟨lhs', harrangement, hvalue⟩ := ihlhs first
        ((hroom first List.mem_cons_self).le (le_max_left _ _))
      obtain ⟨rhs', harrangement', hvalue'⟩ := ihrhs operand.2 rest hrest fun n hn =>
        (hroom n (List.mem_cons_of_mem _ hn)).le (le_max_right _ _)
      refine ⟨mult lhs' op rhs', congrArg₂ (fun l r => mult l op r) harrangement harrangement', ?_⟩
      change Chain.cons lhs'.operands op rhs'.operands = _
      rw [hvalue, hvalue', ← hop]
      rfl
  | term t ih =>
    intro first rest hrest hroom
    obtain rfl := List.map_eq_nil_iff.mp hrest
    obtain ⟨t', harrangement, hvalue⟩ := attains_product ih (hroom first List.mem_cons_self)
    exact ⟨term t', congrArg term harrangement, congrArg Chain.single hvalue⟩
  | add lhs op rhs ihlhs ihrhs =>
    intro first rest hrest hroom
    cases rest with
    | nil => cases hrest
    | cons operand rest =>
      obtain ⟨hop, hrest⟩ := List.cons.inj hrest
      obtain ⟨lhs', harrangement, hvalue⟩ := attains_product ihlhs
        ((hroom first List.mem_cons_self).le (le_max_left _ _))
      obtain ⟨rhs', harrangement', hvalue'⟩ := ihrhs operand.2 rest hrest fun n hn =>
        (hroom n (List.mem_cons_of_mem _ hn)).le (le_max_right _ _)
      refine ⟨add lhs' op rhs', congrArg₂ (fun l r => add l op r) harrangement harrangement', ?_⟩
      change Chain.cons (leftValue multResult lhs'.operands) op rhs'.operands = _
      rw [hvalue, hvalue', ← hop]
      rfl

/-! ### Parts within an expression -/

theorem parts_nesting (p : Phrase α s) :
    ∀ part ∈ p.parts, part.moduloNesting ≤ p.moduloNesting := by
  induction p with
  | posInt literal => exact fun part hpart => absurd hpart List.not_mem_nil
  | factor expr ih =>
    intro part hpart
    rcases List.mem_cons.mp hpart with rfl | hpart
    · exact le_rfl
    · exact ih part hpart
  | arg a ih => exact ih
  | mult lhs op rhs ihlhs ihrhs =>
    intro part hpart
    rcases List.mem_append.mp hpart with hpart | hpart
    · exact (ihlhs part hpart).trans (le_max_left _ _)
    · exact (ihrhs part hpart).trans (le_max_right _ _)
  | term t ih =>
    intro part hpart
    rcases List.mem_cons.mp hpart with rfl | hpart
    · exact le_rfl
    · exact (ih part hpart).trans (Nat.le_add_right _ _)
  | add lhs op rhs ihlhs ihrhs =>
    intro part hpart
    rcases List.mem_cons.mp hpart with rfl | hpart
    · exact le_max_left _ _
    · rcases List.mem_append.mp hpart with hpart | hpart
      · exact (ihlhs part hpart).trans ((Nat.le_add_right _ _).trans (le_max_left _ _))
      · exact (ihrhs part hpart).trans (le_max_right _ _)

theorem term_of_arrangement {p : Phrase Literal .integerExpr} {t : Phrase Literal .integerTermExpr}
    (harrangement : p.arrangement = (term t).arrangement) :
    ∃ t', p = term t' ∧ t'.arrangement = t.arrangement := by
  cases p with
  | term t' => exact ⟨t', rfl, Phrase.term.inj harrangement⟩
  | add lhs op rhs => cases harrangement

/-- A part can be exchanged for another of its arrangement. -/
theorem exchange {p : Phrase Literal s} {part part' : Phrase Literal .integerExpr}
    (hpart : part ∈ p.parts) (hsame : part'.arrangement = part.arrangement) :
    ∃ p' : Phrase Literal s, p'.arrangement = p.arrangement ∧ part' ∈ p'.parts ∧
      ∀ inner ∈ part'.parts, inner ∈ p'.parts := by
  induction p with
  | posInt literal => exact absurd hpart List.not_mem_nil
  | factor expr ih =>
    rcases List.mem_cons.mp hpart with rfl | hpart
    · exact ⟨factor part', congrArg factor hsame, List.mem_cons_self,
        fun _ h => List.mem_cons_of_mem _ h⟩
    · obtain ⟨expr', harrangement, hmem, hinner⟩ := ih hpart
      exact ⟨factor expr', congrArg factor harrangement, List.mem_cons_of_mem _ hmem,
        fun inner h => List.mem_cons_of_mem _ (hinner inner h)⟩
  | arg a ih =>
    obtain ⟨a', harrangement, hmem, hinner⟩ := ih hpart
    exact ⟨arg a', congrArg arg harrangement, hmem, hinner⟩
  | mult lhs op rhs ihlhs ihrhs =>
    rcases List.mem_append.mp hpart with hpart | hpart
    · obtain ⟨lhs', harrangement, hmem, hinner⟩ := ihlhs hpart
      exact ⟨mult lhs' op rhs, congrArg (mult · op rhs.arrangement) harrangement,
        List.mem_append_left _ hmem, fun inner h => List.mem_append_left _ (hinner inner h)⟩
    · obtain ⟨rhs', harrangement, hmem, hinner⟩ := ihrhs hpart
      exact ⟨mult lhs op rhs', congrArg (mult lhs.arrangement op) harrangement,
        List.mem_append_right _ hmem, fun inner h => List.mem_append_right _ (hinner inner h)⟩
  | term t ih =>
    rcases List.mem_cons.mp hpart with rfl | hpart
    · obtain ⟨t', rfl, hterm⟩ := term_of_arrangement hsame
      exact ⟨term t', congrArg term hterm, List.mem_cons_self, fun _ h => h⟩
    · obtain ⟨t', harrangement, hmem, hinner⟩ := ih hpart
      exact ⟨term t', congrArg term harrangement, List.mem_cons_of_mem _ hmem,
        fun inner h => List.mem_cons_of_mem _ (hinner inner h)⟩
  | add lhs op rhs ihlhs ihrhs =>
    rcases List.mem_cons.mp hpart with rfl | hpart
    · obtain ⟨t', rfl, hterm⟩ := term_of_arrangement hsame
      refine ⟨add t' op rhs, congrArg (add · op rhs.arrangement) hterm, List.mem_cons_self,
        fun inner h => ?_⟩
      rcases List.mem_cons.mp h with rfl | h
      · exact List.mem_cons_self
      · exact List.mem_cons_of_mem _ (List.mem_append_left _ h)
    · rcases List.mem_append.mp hpart with hpart | hpart
      · obtain ⟨lhs', harrangement, hmem, hinner⟩ := ihlhs hpart
        exact ⟨add lhs' op rhs, congrArg (add · op rhs.arrangement) harrangement,
          List.mem_cons_of_mem _ (List.mem_append_left _ hmem),
          fun inner h => List.mem_cons_of_mem _ (List.mem_append_left _ (hinner inner h))⟩
      · obtain ⟨rhs', harrangement, hmem, hinner⟩ := ihrhs hpart
        exact ⟨add lhs op rhs', congrArg (add lhs.arrangement op) harrangement,
          List.mem_cons_of_mem _ (List.mem_append_right _ hmem),
          fun inner h => List.mem_cons_of_mem _ (List.mem_append_right _ (hinner inner h))⟩

/-! ### The law -/

/-- The tokens are evaluated as arithmetic says, and throw where it gives no value. -/
def EvaluatesConventionally (p : Phrase Literal .integerExpr) : Prop :=
  ∃ result, Ends (fun fuel => (evaluation fuel p.tokens).run) result ∧
    valueOf result = p.conventional

/-- The text of the tree is parsed to a tree that evaluates, or throws, as it does. -/
def Rereads (p : Phrase Literal .integerExpr) : Prop :=
  ∀ tree, Ends (fun fuel => (read fuel p.tokens).run) (.ok tree) →
    ∃ tree', Ends (fun fuel => (read fuel (lex tree.asText)).run) (.ok tree') ∧
      ∀ result, Ends (fun fuel => (tree'.evaluate [] fuel).run) result ↔
        Ends (fun fuel => (tree.evaluate [] fuel).run) result

structure MeansArithmetic (p : Phrase Literal .integerExpr) : Prop where
  evaluates : p.EvaluatesConventionally
  rereads : p.Rereads

theorem evaluatesConventionally_iff (p : Phrase Literal .integerExpr) :
    p.EvaluatesConventionally ↔ p.Agrees := by
  constructor
  · rintro ⟨result, hends, hvalue⟩
    rw [Agrees, ← p.valueOf_tree, ← hvalue, p.evaluation_ends.unique hends]
  · intro hagrees
    exact ⟨_, p.evaluation_ends, p.valueOf_tree.trans hagrees⟩

theorem rereads (p : Phrase Literal .integerExpr) : p.Rereads := by
  intro tree htree
  have hread : p.tree = .ok tree := p.read_ends.unique htree
  exact ⟨tree, p.reread_ends hread, fun _ => Iff.rfl⟩

theorem meansArithmetic_iff (p : Phrase Literal .integerExpr) : p.MeansArithmetic ↔ p.Agrees :=
  ⟨fun h => p.evaluatesConventionally_iff.mp h.evaluates,
    fun h => ⟨p.evaluatesConventionally_iff.mpr h, p.rereads⟩⟩

theorem room_of_bound {ω : Type} {first nesting : Nat} {rest : List (ω × Nat)}
    (hfirst : first ≤ 65537) (hrest : ∀ operand ∈ rest, operand.2 ≤ 65537)
    (hnesting : 65537 + nesting < uint32Size) :
    ∀ n ∈ first :: rest.map (·.2), Room n nesting := by
  have hroom : ∀ n ≤ 65537, Room n nesting := by
    intro n hn
    unfold Room
    omega
  intro n hn
  rcases List.mem_cons.mp hn with rfl | hn
  · exact hroom n hfirst
  · obtain ⟨operand, hoperand, rfl⟩ := List.mem_map.mp hn
    exact hroom _ (hrest operand hoperand)

/-- An expression that agrees with all its parts, for all its literals. -/
theorem groupsAlike_of_agrees {p : Phrase Literal .integerExpr}
    (hnesting : 65537 + p.moduloNesting < uint32Size)
    (hagrees : ∀ p' : Phrase Literal .integerExpr, p'.arrangement = p.arrangement →
      ∀ part ∈ p' :: p'.parts, part.Agrees) : p.GroupsAlike := by
  by_contra hnot
  cases p with
  | term t =>
    have hlong : 2 ≤ t.multOperators.length := by
      have hmore : ¬t.multOperators.length ≤ 1 := hnot
      omega
    obtain ⟨first, rest, hops, hfirst, hrest, hdiffers⟩ := product_toldApart hlong
    have hinner : 65537 + t.moduloNesting < uint32Size :=
      lt_of_le_of_lt (Nat.add_le_add_left (Nat.le_add_right _ _) _) hnesting
    obtain ⟨t', harrangement, hoperands⟩ :=
      attains t first rest hops (room_of_bound hfirst hrest hinner)
    have hall := hagrees (term t') (congrArg term harrangement)
    have hparts : ∀ part ∈ t'.parts, part.Agrees := fun part hpart =>
      hall part (List.mem_cons_of_mem _ (List.mem_cons_of_mem _ hpart))
    have hsame := (agrees_term_iff hparts).mp (hall _ List.mem_cons_self)
    rw [hoperands] at hsame
    exact hdiffers hsame.symm
  | add lhs op rhs =>
    obtain ⟨hlong, hother⟩ := not_or.mp hnot
    have hminus : .minus ∈ (add lhs op rhs).addOperators := by
      by_contra habsent
      apply hother
      intro o ho
      cases o with
      | plus => rfl
      | minus => exact absurd ho habsent
    obtain ⟨first, rest, hops, hfirst, hrest, hdiffers⟩ := sum_toldApart (by omega) hminus
    obtain ⟨p', harrangement, hoperands⟩ :=
      attains (add lhs op rhs) first rest hops (room_of_bound hfirst hrest hnesting)
    have hall := hagrees p' harrangement
    have hsame := (agrees_iff fun part hpart => hall part (List.mem_cons_of_mem _ hpart)).mp
      (hall _ List.mem_cons_self)
    rw [hoperands] at hsame
    exact hdiffers hsame.symm

/-- The literals of an expression, and of the expressions in it, are evaluated as arithmetic says whichever they are, where no product has two operators and no sum with two has a subtraction; and only there, if fewer than 2^32 - 65537 chains with a modulo are nested in one another. -/
theorem arithmetic_iff (source : Phrase Literal .integerExpr) :
    ((∀ part ∈ source :: source.parts, part.GroupsAlike) →
      ∀ p : Phrase Literal .integerExpr, p.arrangement = source.arrangement →
        ∀ part ∈ p :: p.parts, part.MeansArithmetic) ∧
    (65537 + source.moduloNesting < uint32Size →
      (∀ p : Phrase Literal .integerExpr, p.arrangement = source.arrangement →
        ∀ part ∈ p :: p.parts, part.MeansArithmetic) →
      ∀ part ∈ source :: source.parts, part.GroupsAlike) := by
  constructor
  · intro halike p harrangement part hpart
    have hp := parts_alike_of_arrangement harrangement halike
    have hparts := parts_agree p fun part h => hp part (List.mem_cons_of_mem _ h)
    rw [meansArithmetic_iff]
    rcases List.mem_cons.mp hpart with rfl | hpart
    · exact agrees_of_alike hparts (hp part List.mem_cons_self)
    · exact hparts part hpart
  · intro hnesting hmeans part hpart
    rcases List.mem_cons.mp hpart with rfl | hpart
    · exact groupsAlike_of_agrees hnesting fun p' harrangement inner hinner =>
        inner.meansArithmetic_iff.mp (hmeans p' harrangement inner hinner)
    · have hle := source.parts_nesting part hpart
      refine groupsAlike_of_agrees (by omega) fun part' hsame inner hinner => ?_
      obtain ⟨p', harrangement, hmem, hall⟩ := exchange hpart hsame
      apply inner.meansArithmetic_iff.mp
      refine hmeans p' harrangement inner (List.mem_cons_of_mem _ ?_)
      rcases List.mem_cons.mp hinner with rfl | hinner
      · exact hmem
      · exact hall inner hinner

/-- `5 - 2 - 1` is evaluated to four. -/
theorem not_meansArithmetic : ¬∀ p : Phrase Literal .integerExpr, p.MeansArithmetic := by
  intro hall
  have hagrees := (meansArithmetic_iff _).mp (hall
    (add (arg (posInt (Literal.ofNat 5))) .minus
      (add (arg (posInt (Literal.ofNat 2))) .minus (term (arg (posInt (Literal.ofNat 1)))))))
  have hfour : some 4 = some 2 := hagrees
  cases hfour

end Phrase

end Icl

end Mast
