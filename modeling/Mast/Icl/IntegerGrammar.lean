import Mast.Icl.IntegerTokens
import Mast.Lib.Fuel
import Mast.Lib.Outcome

/-!
# The grammar of ICL integer expressions

The productions of `ICL_Parser.yy` for integer expressions without parameters. A `Phrase` is a derivation of the grammar; the parser descends over the tokens with one token of lookahead, and its actions run in the order of the generated parser. What the parser makes of the tokens of a phrase is what the actions of the derivation make.

The lists of operands are recursive on their right, so a tree groups operators of equal precedence from the right. Printing a tree and reading the text gives the tree again.
-/

namespace Mast

namespace Icl

open AST (IntegerExpr Operator)
open Fuel Outcome

inductive Nonterminal
  | integerExpr
  | integerTermExpr
  | integerArgExpr
  deriving DecidableEq

/-- The alternatives of `add_operator`. -/
inductive AddOperator
  | plus
  | minus
  deriving DecidableEq

/-- The alternatives of `mult_operator`. -/
inductive MultOperator
  | star
  | slash
  | percent
  deriving DecidableEq

def AddOperator.kind : AddOperator → Operator
  | .plus => .add
  | .minus => .substract

def MultOperator.kind : MultOperator → Operator
  | .star => .multiply
  | .slash => .divide
  | .percent => .modulo

/-- The derivations of the grammar, over the literals that stand for `pos_int`. -/
inductive Phrase (α : Type) : Nonterminal → Type
  /-- `integer_arg_expr : pos_int` -/
  | posInt (literal : α) : Phrase α .integerArgExpr
  /-- `integer_arg_expr : integer_factor_expr`, `integer_factor_expr : LEFT_PAREN integer_expr RIGHT_PAREN` -/
  | factor (expr : Phrase α .integerExpr) : Phrase α .integerArgExpr
  /-- `integer_term_expr : integer_arg_expr` -/
  | arg (arg : Phrase α .integerArgExpr) : Phrase α .integerTermExpr
  /-- `integer_term_expr : integer_arg_expr mult_operator integer_term_expr` -/
  | mult (lhs : Phrase α .integerArgExpr) (op : MultOperator) (rhs : Phrase α .integerTermExpr) :
      Phrase α .integerTermExpr
  /-- `integer_expr : integer_term_expr` -/
  | term (term : Phrase α .integerTermExpr) : Phrase α .integerExpr
  /-- `integer_expr : integer_term_expr add_operator integer_expr` -/
  | add (lhs : Phrase α .integerTermExpr) (op : AddOperator) (rhs : Phrase α .integerExpr) :
      Phrase α .integerExpr

namespace Phrase

variable {α β : Type} {s : Nonterminal}

def tokens : {s : Nonterminal} → Phrase Literal s → List Token
  | _, posInt literal => [literal.token]
  | _, factor expr => .leftParen :: expr.tokens ++ [.rightParen]
  | _, arg a => a.tokens
  | _, mult lhs op rhs => lhs.tokens ++ op.kind.token :: rhs.tokens
  | _, term t => t.tokens
  | _, add lhs op rhs => lhs.tokens ++ op.kind.token :: rhs.tokens

/-- The same derivation over other literals. -/
def map (f : α → β) : {s : Nonterminal} → Phrase α s → Phrase β s
  | _, posInt literal => posInt (f literal)
  | _, factor expr => factor (expr.map f)
  | _, arg a => arg (a.map f)
  | _, mult lhs op rhs => mult (lhs.map f) op (rhs.map f)
  | _, term t => term (t.map f)
  | _, add lhs op rhs => add (lhs.map f) op (rhs.map f)

end Phrase

/-! ### The parser -/

/-- The error of the generated parser. -/
def syntaxError : Fault := .runtimeError "syntax error"

/-- `pos_int`: the value of the literal that is created. -/
def posIntValue : Token → Option (Except Fault UInt32)
  | .posInt lexeme => some (integerLiteral lexeme)
  | .one => some (.ok 1)
  | .zero => some (.ok 0)
  | _ => none

def addOperator : Token → Option AddOperator
  | .plus => some .plus
  | .minus => some .minus
  | _ => none

def multOperator : Token → Option MultOperator
  | .star => some .star
  | .slash => some .slash
  | .percent => some .percent
  | _ => none

def orThrow {α : Type} (result : Except Fault α) : ExceptT Fault Option α :=
  (some result : Option (Except Fault α))

def parse : Nat → Nonterminal → List Token → ExceptT Fault Option (IntegerExpr × List Token)
  | 0, _, _ => (none : Option (Except Fault (IntegerExpr × List Token)))
  | fuel + 1, .integerExpr, tokens => do
    let (lhs, tokens) ← parse fuel .integerTermExpr tokens
    match tokens.head?.bind addOperator with
    | some op => do
      let (rhs, tokens) ← parse fuel .integerExpr tokens.tail
      pure (.integerBinaryExpr op.kind lhs rhs, tokens)
    | none => pure (lhs, tokens)
  | fuel + 1, .integerTermExpr, tokens => do
    let (lhs, tokens) ← parse fuel .integerArgExpr tokens
    match tokens.head?.bind multOperator with
    | some op => do
      let (rhs, tokens) ← parse fuel .integerTermExpr tokens.tail
      pure (.integerBinaryExpr op.kind lhs rhs, tokens)
    | none => pure (lhs, tokens)
  | fuel + 1, .integerArgExpr, tokens =>
    match tokens with
    | .leftParen :: tokens => do
      let (operand, tokens) ← parse fuel .integerExpr tokens
      match tokens with
      | .rightParen :: tokens => pure (.parenthesizedExpr operand, tokens)
      | _ => throw syntaxError
    | token :: tokens =>
      match posIntValue token with
      | some value => do
        let value ← orThrow value
        pure (.integerLiteral value, tokens)
      | none => throw syntaxError
    | [] => throw syntaxError

def read (fuel : Nat) (tokens : List Token) : ExceptT Fault Option IntegerExpr := do
  let (tree, tokens) ← parse fuel .integerExpr tokens
  match tokens with
  | [] => pure tree
  | _ => throw syntaxError

/-! ### The trees of derivations -/

namespace Phrase

variable {s : Nonterminal}

def tree : {s : Nonterminal} → Phrase Literal s → Except Fault IntegerExpr
  | _, posInt literal => (integerLiteral literal.lexeme).map .integerLiteral
  | _, factor expr => expr.tree.map .parenthesizedExpr
  | _, arg a => a.tree
  | _, mult lhs op rhs => do
    let lhs ← lhs.tree
    let rhs ← rhs.tree
    pure (.integerBinaryExpr op.kind lhs rhs)
  | _, term t => t.tree
  | _, add lhs op rhs => do
    let lhs ← lhs.tree
    let rhs ← rhs.tree
    pure (.integerBinaryExpr op.kind lhs rhs)

/-- Tokens with which a phrase of the nonterminal does not go on. -/
def Follows : Nonterminal → List Token → Prop
  | .integerExpr, rest =>
    rest.head?.bind multOperator = none ∧ rest.head?.bind addOperator = none
  | .integerTermExpr, rest => rest.head?.bind multOperator = none
  | .integerArgExpr, _ => True

theorem posIntValue_token (literal : Literal) :
    posIntValue literal.token = some (integerLiteral literal.lexeme) := by
  rw [Literal.token]
  split_ifs with hzero hone
  · rw [hzero]
    rfl
  · rw [hone]
    rfl
  · rfl

theorem parse_literal {token : Token} {value : Except Fault UInt32}
    (hvalue : posIntValue token = some value) (rest : List Token) (fuel : Nat) :
    parse (fuel + 1) .integerArgExpr (token :: rest) =
      (orThrow value >>= fun value => pure (.integerLiteral value, rest)) := by
  have hother : token ≠ .leftParen := by
    rintro rfl
    cases hvalue
  rw [parse]
  simp only [hvalue]
  exact hother

theorem parse_refused {token : Token} (hother : token ≠ .leftParen)
    (hvalue : posIntValue token = none) (rest : List Token) (fuel : Nat) :
    parse (fuel + 1) .integerArgExpr (token :: rest) = throw syntaxError := by
  rw [parse]
  · simp only [hvalue]
  · exact hother

theorem multOperator_token (op : MultOperator) : multOperator op.kind.token = some op := by
  cases op <;> rfl

theorem addOperator_token (op : AddOperator) : addOperator op.kind.token = some op := by
  cases op <;> rfl

theorem add_not_mult (op : AddOperator) : multOperator op.kind.token = none := by
  cases op <;> rfl

theorem orThrow_ok_bind {α β : Type} (a : α) (f : α → ExceptT Fault Option β) :
    orThrow (.ok a) >>= f = f a := rfl

def depth : {s : Nonterminal} → Phrase Literal s → Nat
  | _, posInt _ => 1
  | _, factor expr => expr.depth + 1
  | _, arg a => a.depth + 1
  | _, mult lhs _ rhs => max lhs.depth rhs.depth + 1
  | _, term t => t.depth + 1
  | _, add lhs _ rhs => max lhs.depth rhs.depth + 1

/-- The parser makes of the tokens of a derivation what the actions of the derivation make. -/
theorem parse_eq (p : Phrase Literal s) {rest : List Token} (hrest : Follows s rest) {fuel : Nat}
    (hfuel : p.depth ≤ fuel) :
    parse fuel s (p.tokens ++ rest) = orThrow (p.tree.map (·, rest)) := by
  induction p generalizing rest fuel with
  | posInt literal =>
    obtain ⟨fuel, rfl⟩ := Nat.exists_eq_add_of_le' hfuel
    refine (parse_literal (posIntValue_token literal) rest fuel).trans ?_
    rw [tree]
    cases integerLiteral literal.lexeme <;> rfl
  | factor expr ih =>
    obtain ⟨fuel, rfl⟩ := Nat.exists_eq_add_of_le' (le_trans (Nat.le_add_left 1 _) hfuel)
    have htokens : (factor expr).tokens ++ rest =
        .leftParen :: (expr.tokens ++ .rightParen :: rest) := by
      rw [tokens, List.cons_append, List.cons_append, List.append_assoc]
      rfl
    have hexpr := @ih (.rightParen :: rest) ⟨rfl, rfl⟩ fuel (Nat.le_of_succ_le_succ hfuel)
    rw [htokens, parse, hexpr, tree]
    cases expr.tree <;> rfl
  | arg a ih =>
    obtain ⟨fuel, rfl⟩ := Nat.exists_eq_add_of_le' (le_trans (Nat.le_add_left 1 _) hfuel)
    have harg := @ih rest trivial fuel (Nat.le_of_succ_le_succ hfuel)
    have hrest : rest.head?.bind multOperator = none := hrest
    rw [tokens, parse, harg, tree]
    cases a.tree with
    | error fault => rfl
    | ok tree =>
      simp only [Except.map, orThrow_ok_bind, hrest]
      rfl
  | mult lhs op rhs ihlhs ihrhs =>
    obtain ⟨fuel, rfl⟩ := Nat.exists_eq_add_of_le' (le_trans (Nat.le_add_left 1 _) hfuel)
    have hdepth : max lhs.depth rhs.depth ≤ fuel := Nat.le_of_succ_le_succ hfuel
    have hlhs := @ihlhs (op.kind.token :: (rhs.tokens ++ rest)) trivial fuel
      (le_trans (le_max_left _ _) hdepth)
    have hrhs := ihrhs hrest (le_trans (le_max_right _ _) hdepth)
    rw [tokens, List.append_assoc, List.cons_append, parse, hlhs, tree]
    cases lhs.tree with
    | error fault => rfl
    | ok left =>
      simp only [Except.map, orThrow_ok_bind, List.head?_cons, Option.bind_some, multOperator_token,
        List.tail_cons, hrhs]
      cases rhs.tree <;> rfl
  | term t ih =>
    obtain ⟨fuel, rfl⟩ := Nat.exists_eq_add_of_le' (le_trans (Nat.le_add_left 1 _) hfuel)
    have hterm := @ih rest hrest.1 fuel (Nat.le_of_succ_le_succ hfuel)
    rw [tokens, parse, hterm, tree]
    cases t.tree with
    | error fault => rfl
    | ok tree =>
      simp only [Except.map, orThrow_ok_bind, hrest.2]
      rfl
  | add lhs op rhs ihlhs ihrhs =>
    obtain ⟨fuel, rfl⟩ := Nat.exists_eq_add_of_le' (le_trans (Nat.le_add_left 1 _) hfuel)
    have hdepth : max lhs.depth rhs.depth ≤ fuel := Nat.le_of_succ_le_succ hfuel
    have hlhs := @ihlhs (op.kind.token :: (rhs.tokens ++ rest)) (add_not_mult op) fuel
      (le_trans (le_max_left _ _) hdepth)
    have hrhs := ihrhs hrest (le_trans (le_max_right _ _) hdepth)
    rw [tokens, List.append_assoc, List.cons_append, parse, hlhs, tree]
    cases lhs.tree with
    | error fault => rfl
    | ok left =>
      simp only [Except.map, orThrow_ok_bind, List.head?_cons, Option.bind_some, addOperator_token,
        List.tail_cons, hrhs]
      cases rhs.tree <;> rfl

theorem read_eq (p : Phrase Literal .integerExpr) {fuel : Nat} (hfuel : p.depth ≤ fuel) :
    read fuel p.tokens = orThrow p.tree := by
  have hparse := @parse_eq _ p [] ⟨rfl, rfl⟩ fuel hfuel
  rw [List.append_nil] at hparse
  rw [read, hparse]
  cases p.tree <;> rfl

theorem read_ends (p : Phrase Literal .integerExpr) :
    Ends (fun fuel => (read fuel p.tokens).run) p.tree :=
  ⟨p.depth, fun _ hfuel => congrArg ExceptT.run (p.read_eq hfuel)⟩

/-! ### What the parser accepts -/

/-- The lexemes are those that the lexer returns as `POS_INT`. -/
def Scanned (tokens : List Token) : Prop :=
  ∀ lexeme, .posInt lexeme ∈ tokens →
    isPosInt lexeme = true ∧ lexeme ≠ ['0'] ∧ lexeme ≠ ['1']

theorem literal_of_token {token : Token} {value : Except Fault UInt32}
    (hvalue : posIntValue token = some value)
    (hlexeme : ∀ lexeme, token = .posInt lexeme →
      isPosInt lexeme = true ∧ lexeme ≠ ['0'] ∧ lexeme ≠ ['1']) :
    ∃ literal : Literal, literal.token = token ∧ integerLiteral literal.lexeme = value := by
  have hfound : ∃ literal : Literal, literal.token = token := by
    cases token with
    | posInt lexeme =>
      obtain ⟨hdigits, hzero, hone⟩ := hlexeme lexeme rfl
      refine ⟨⟨lexeme, hdigits⟩, ?_⟩
      rw [Literal.token, if_neg hzero, if_neg hone]
    | one => exact ⟨⟨['1'], rfl⟩, rfl⟩
    | zero => exact ⟨⟨['0'], rfl⟩, rfl⟩
    | _ => cases hvalue
  obtain ⟨literal, rfl⟩ := hfound
  exact ⟨literal, rfl, Option.some.inj ((posIntValue_token literal).symm.trans hvalue)⟩

theorem operator_split {ω : Type} {operator : Token → Option ω} {token : ω → Token}
    (htoken : ∀ t op, operator t = some op → t = token op) {tokens : List Token} {op : ω}
    (hop : tokens.head?.bind operator = some op) : tokens = token op :: tokens.tail := by
  cases tokens with
  | nil => cases hop
  | cons t tokens => exact congrArg (· :: tokens) (htoken t op hop)

theorem token_of_addOperator (t : Token) (op : AddOperator) (hop : addOperator t = some op) :
    t = op.kind.token := by
  cases t <;> cases hop <;> rfl

theorem token_of_multOperator (t : Token) (op : MultOperator) (hop : multOperator t = some op) :
    t = op.kind.token := by
  cases t <;> cases hop <;> rfl

theorem Scanned.append_right {tokens tokens' : List Token} (hscanned : Scanned (tokens ++ tokens')) :
    Scanned tokens' :=
  fun lexeme h => hscanned lexeme (List.mem_append_right _ h)

theorem Scanned.tail {token : Token} {tokens : List Token} (hscanned : Scanned (token :: tokens)) :
    Scanned tokens :=
  fun lexeme h => hscanned lexeme (List.mem_cons_of_mem _ h)

/-- What the parser takes for a nonterminal are the tokens of a derivation. -/
theorem parse_sound {fuel : Nat} {s : Nonterminal} {tokens rest : List Token} {tree : IntegerExpr}
    (hscanned : Scanned tokens)
    (hparse : (parse fuel s tokens).run = some (.ok (tree, rest))) :
    ∃ p : Phrase Literal s, tokens = p.tokens ++ rest ∧ p.tree = .ok tree := by
  induction fuel generalizing s tokens rest tree with
  | zero => cases hparse
  | succ fuel ih =>
    cases s with
    | integerExpr =>
      obtain ⟨e, -, h⟩ | ⟨⟨lhs, after⟩, hlhs, hnext⟩ := run_bind_eq_some_iff.mp hparse
      · cases h
      · obtain ⟨t, rfl, htree⟩ := ih hscanned hlhs
        cases hop : after.head?.bind addOperator with
        | none =>
          simp only [hop] at hnext
          cases hnext
          exact ⟨term t, rfl, htree⟩
        | some op =>
          simp only [hop] at hnext
          obtain ⟨e, -, h⟩ | ⟨⟨rhs, later⟩, hrhs, hlast⟩ := run_bind_eq_some_iff.mp hnext
          · cases h
          · cases hlast
            have hafter := operator_split token_of_addOperator hop
            have hlater : Scanned after.tail := by
              rw [hafter] at hscanned
              exact hscanned.append_right.tail
            obtain ⟨p, hp, hptree⟩ := ih hlater hrhs
            refine ⟨add t op p, ?_, ?_⟩
            · rw [tokens, List.append_assoc, List.cons_append, ← hp]
              exact congrArg (t.tokens ++ ·) hafter
            · rw [Phrase.tree, htree, hptree]
              rfl
    | integerTermExpr =>
      obtain ⟨e, -, h⟩ | ⟨⟨lhs, after⟩, hlhs, hnext⟩ := run_bind_eq_some_iff.mp hparse
      · cases h
      · obtain ⟨a, rfl, htree⟩ := ih hscanned hlhs
        cases hop : after.head?.bind multOperator with
        | none =>
          simp only [hop] at hnext
          cases hnext
          exact ⟨arg a, rfl, htree⟩
        | some op =>
          simp only [hop] at hnext
          obtain ⟨e, -, h⟩ | ⟨⟨rhs, later⟩, hrhs, hlast⟩ := run_bind_eq_some_iff.mp hnext
          · cases h
          · cases hlast
            have hafter := operator_split token_of_multOperator hop
            have hlater : Scanned after.tail := by
              rw [hafter] at hscanned
              exact hscanned.append_right.tail
            obtain ⟨t, ht, httree⟩ := ih hlater hrhs
            refine ⟨mult a op t, ?_, ?_⟩
            · rw [tokens, List.append_assoc, List.cons_append, ← ht]
              exact congrArg (a.tokens ++ ·) hafter
            · rw [Phrase.tree, htree, httree]
              rfl
    | integerArgExpr =>
      cases tokens with
      | nil => cases hparse
      | cons token tokens =>
        by_cases hparen : token = .leftParen
        · subst hparen
          obtain ⟨e, -, h⟩ | ⟨⟨operand, after⟩, hoperand, hnext⟩ := run_bind_eq_some_iff.mp hparse
          · cases h
          · obtain ⟨p, rfl, htree⟩ := ih hscanned.tail hoperand
            cases after with
            | nil => cases hnext
            | cons last after =>
              cases last with
              | rightParen =>
                cases hnext
                refine ⟨factor p, ?_, ?_⟩
                · rw [Phrase.tokens, List.cons_append, List.cons_append, List.append_assoc]
                  rfl
                · rw [Phrase.tree, htree]
                  rfl
              | _ => cases hnext
        · cases hvalue : posIntValue token with
          | none =>
            rw [parse_refused hparen hvalue] at hparse
            cases hparse
          | some value =>
            rw [parse_literal hvalue] at hparse
            obtain ⟨literal, rfl, hliteral⟩ := literal_of_token hvalue fun lexeme h =>
              hscanned lexeme (h ▸ List.mem_cons_self)
            cases value with
            | error fault => cases hparse
            | ok number =>
              cases hparse
              refine ⟨posInt literal, rfl, ?_⟩
              rw [Phrase.tree, hliteral]
              rfl

/-- Every tree that the parser builds is the tree of a derivation. -/
theorem read_sound {fuel : Nat} {tokens : List Token} {tree : IntegerExpr}
    (hscanned : Scanned tokens) (hread : (read fuel tokens).run = some (.ok tree)) :
    ∃ p : Phrase Literal .integerExpr, tokens = p.tokens ∧ p.tree = .ok tree := by
  obtain ⟨e, -, h⟩ | ⟨⟨tree', rest⟩, hparse, hnext⟩ := run_bind_eq_some_iff.mp hread
  · cases h
  · cases rest with
    | nil =>
      cases hnext
      obtain ⟨p, htokens, htree⟩ := parse_sound hscanned hparse
      exact ⟨p, by rw [htokens, List.append_nil], htree⟩
    | cons token rest => cases hnext

/-! ### Printing a tree and reading it again -/

/-- The derivation with the literals that print the values of the tree. -/
def printed : {s : Nonterminal} → Phrase Literal s → Phrase Literal s :=
  map fun literal => Literal.ofNat literal.number

theorem tree_posInt_ok {literal : Literal} {tree : IntegerExpr}
    (htree : (posInt literal).tree = .ok tree) : literal.number < uint32Size ∧
      tree = .integerLiteral (UInt32.ofNat literal.number) := by
  rw [Phrase.tree] at htree
  by_cases hfits : literal.number < uint32Size
  · rw [integerLiteral_fits literal hfits] at htree
    exact ⟨hfits, (Except.ok.inj htree).symm⟩
  · obtain ⟨fault, hfault⟩ := integerLiteral_throws literal (Nat.le_of_not_lt hfits)
    rw [hfault] at htree
    cases htree

/-- What is printed are the tokens of a derivation with the same tree. -/
theorem printed_meets (p : Phrase Literal s) {tree : IntegerExpr} (htree : p.tree = .ok tree) :
    tree.Plain ∧ p.printed.tree = .ok tree ∧ p.printed.tokens = tree.tokens := by
  induction p generalizing tree with
  | posInt literal =>
    obtain ⟨hfits, rfl⟩ := tree_posInt_ok htree
    have hnumber := Literal.number_ofNat literal.number
    have hprinted : integerLiteral (Literal.ofNat literal.number).lexeme =
        .ok (UInt32.ofNat literal.number) := by
      have h := integerLiteral_fits (Literal.ofNat literal.number) (by rw [hnumber]; exact hfits)
      rwa [hnumber] at h
    have hvalue : (UInt32.ofNat literal.number).toNat = literal.number :=
      UInt32.toNat_ofNat_of_lt' hfits
    refine ⟨trivial, ?_, ?_⟩
    · rw [printed, map, Phrase.tree, hprinted]
      rfl
    · rw [printed, map, tokens, IntegerExpr.tokens, hvalue]
  | factor expr ih =>
    obtain ⟨operand, hoperand, rfl⟩ := map_eq_ok.mp htree
    obtain ⟨hplain, hprinted, htokens⟩ := ih hoperand
    refine ⟨hplain, ?_, ?_⟩
    · exact map_eq_ok.mpr ⟨operand, hprinted, rfl⟩
    · exact congrArg (fun tokens => Token.leftParen :: tokens ++ [.rightParen]) htokens
  | arg a ih => exact ih htree
  | mult lhs op rhs ihlhs ihrhs =>
    obtain ⟨left, hleft, hrest⟩ := bind_eq_ok.mp htree
    obtain ⟨right, hright, hrest⟩ := bind_eq_ok.mp hrest
    obtain rfl := Except.ok.inj hrest
    obtain ⟨hplain, hprinted, htokens⟩ := ihlhs hleft
    obtain ⟨hplain', hprinted', htokens'⟩ := ihrhs hright
    refine ⟨⟨hplain, hplain'⟩, ?_, ?_⟩
    · exact bind_eq_ok.mpr ⟨left, hprinted, bind_eq_ok.mpr ⟨right, hprinted', rfl⟩⟩
    · exact congrArg₂ (fun tokens tokens' => tokens ++ op.kind.token :: tokens') htokens htokens'
  | term t ih => exact ih htree
  | add lhs op rhs ihlhs ihrhs =>
    obtain ⟨left, hleft, hrest⟩ := bind_eq_ok.mp htree
    obtain ⟨right, hright, hrest⟩ := bind_eq_ok.mp hrest
    obtain rfl := Except.ok.inj hrest
    obtain ⟨hplain, hprinted, htokens⟩ := ihlhs hleft
    obtain ⟨hplain', hprinted', htokens'⟩ := ihrhs hright
    refine ⟨⟨hplain, hplain'⟩, ?_, ?_⟩
    · exact bind_eq_ok.mpr ⟨left, hprinted, bind_eq_ok.mpr ⟨right, hprinted', rfl⟩⟩
    · exact congrArg₂ (fun tokens tokens' => tokens ++ op.kind.token :: tokens') htokens htokens'

/-- Reading the text of a tree that the parser built gives the tree. -/
theorem reread_ends (p : Phrase Literal .integerExpr) {tree : IntegerExpr}
    (htree : p.tree = .ok tree) :
    Ends (fun fuel => (read fuel (lex tree.asText)).run) (.ok tree) := by
  obtain ⟨hplain, hprinted, htokens⟩ := p.printed_meets htree
  have hread := p.printed.read_ends
  rwa [hprinted, htokens, ← AST.lex_asText hplain] at hread

end Phrase

end Icl

end Mast
