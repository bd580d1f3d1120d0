import Mathlib
import Mast.BinaryVector.DecimalText
import Mast.Lib.MaximalMunch
import Mast.Readers.IntegerExpr

/-!
# The tokens of ICL integer expressions

The rules of `ICL_Lexer.l` for the characters that integer expressions are written with. All else that the lexer knows (words, strings, based numbers, the opening of a block comment) is one token for each character here, which no integer expression has.
-/

namespace Mast

namespace Icl

open BinaryVector (Text decimal numberOf uint64Size)
open MaximalMunch

inductive Token
  | posInt (lexeme : Text)
  | one
  | zero
  | plus
  | minus
  | star
  | slash
  | percent
  | leftParen
  | rightParen
  | other (c : Char)
  deriving DecidableEq

/-! ### Lexemes -/

def isBlank (c : Char) : Bool := c = ' ' || c = '\r' || c = '\t'

def isPosIntRest (c : Char) : Bool := c.isDigit || c = '_'

/-- The longest lexeme of `[0-9][0-9_]*`. -/
def posIntLength : Text → Nat
  | [] => 0
  | c :: text => if c.isDigit then 1 + (text.takeWhile isPosIntRest).length else 0

/-- The longest lexeme of `[/][/][^\n]*`. -/
def lineCommentLength : Text → Nat
  | '/' :: '/' :: text => 2 + (text.takeWhile fun c => c ≠ '\n').length
  | _ => 0

def commentOpeningLength : Text → Nat
  | '/' :: '*' :: _ => 2
  | _ => 0

def characterRule (c : Char) (token : Token) : Rule Char Token :=
  ⟨fun text => if text.head? = some c then 1 else 0, fun _ => some token⟩

def otherRule : Rule Char Token :=
  ⟨fun text => if text = [] then 0 else 1, fun lexeme => lexeme.head?.map .other⟩

def rules : List (Rule Char Token) :=
  [⟨commentOpeningLength, fun _ => some (.other '/')⟩,
    ⟨fun text => (text.takeWhile isBlank).length, fun _ => none⟩,
    ⟨lineCommentLength, fun _ => none⟩,
    ⟨fun text => if text.head? = some '\n' then 1 else 0, fun _ => none⟩,
    characterRule '(' .leftParen,
    characterRule '-' .minus,
    characterRule '0' .zero,
    characterRule '1' .one,
    characterRule '%' .percent,
    characterRule '+' .plus,
    ⟨posIntLength, fun lexeme => some (.posInt lexeme)⟩,
    characterRule ')' .rightParen,
    characterRule '/' .slash,
    characterRule '*' .star,
    otherRule]

def lex (text : Text) : List Token := scan rules text

/-! ### Literals -/

/-- `std::stoul` of a text without blanks and signs before its digits, `none` for a `std::invalid_argument` and `some none` for a `std::out_of_range`. -/
def stoul (text : Text) : Option (Option Nat) :=
  match text.takeWhile Char.isDigit with
  | [] => none
  | digits => if numberOf digits < uint64Size then some (some (numberOf digits)) else some none

def tooLarge (text : Text) : Fault :=
  .invalidArgument s!"Integer value \"{String.ofList text}\" is too large (limit is 32 bits)"

def invalidCharacters (text : Text) : Fault :=
  .invalidArgument s!"Integer value \"{String.ofList text}\" contains invalid character(s)"

/-- The value of an `AST_IntegerLiteral` made from a text. The check for 32 bits stands in the `try` block whose handler takes its exception for the one of `stoul`. -/
def integerLiteral (integerText : Text) : Except Fault UInt32 :=
  if integerText = [] then
    .error (.invalidArgument "Empty string is not a valid integer literal")
  else if ' ' ∈ integerText then
    .error (.invalidArgument "Integral value cannot embed space(s)")
  else if '-' ∈ integerText then
    .error (.invalidArgument "Integral value cannot embed minus sign")
  else
    let text := integerText.filter (· ≠ '_')
    match stoul text with
    | none => .error (invalidCharacters text)
    | some none => .error (tooLarge text)
    | some (some tmpValue) =>
      if tmpValue < uint32Size then .ok (UInt32.ofNat tmpValue)
      else .error (invalidCharacters text)

/-- A lexeme of `POS_INT`, or the one of `ZERO` or `ONE`. -/
def isPosInt : Text → Bool
  | [] => false
  | c :: text => c.isDigit && text.all isPosIntRest

structure Literal where
  lexeme : Text
  isPosInt : isPosInt lexeme = true
  deriving DecidableEq

/-- The token that the lexer returns for a literal. -/
def Literal.token (literal : Literal) : Token :=
  if literal.lexeme = ['0'] then .zero
  else if literal.lexeme = ['1'] then .one
  else .posInt literal.lexeme

def Literal.number (literal : Literal) : Nat := numberOf (literal.lexeme.filter (· ≠ '_'))

end Icl

/-! ### Texts of expressions -/

namespace AST

open BinaryVector (Text decimal)

def Operator.token : Operator → Icl.Token
  | .add => .plus
  | .substract => .minus
  | .multiply => .star
  | .divide => .slash
  | .modulo => .percent

/-- `AsText` of expressions without parameters; a reference has no text here. -/
def IntegerExpr.asText : IntegerExpr → Text
  | .integerLiteral value => decimal value.toNat
  | .integerBinaryExpr kind left right => left.asText ++ ' ' :: kind.text :: ' ' :: right.asText
  | .parenthesizedExpr operand => '(' :: operand.asText ++ [')']
  | .integerExprRef _ => []

end AST

namespace Icl

open BinaryVector (Text decimal numberOf uint64Size decimal_digits numberOf_decimal)
open MaximalMunch

/-! ### Literals -/

theorem isDigit_of_decDigitValue {c : Char} (hc : (BinaryVector.decDigitValue c).isSome) :
    c.isDigit = true := by
  unfold BinaryVector.decDigitValue at hc
  split at hc
  · rename_i hrange
    have hlow : '0'.toNat ≤ c.toNat := hrange.1
    have hhigh : c.toNat ≤ '9'.toNat := hrange.2
    exact Bool.and_eq_true_iff.mpr ⟨decide_eq_true hlow, decide_eq_true hhigh⟩
  · cases hc

theorem decimal_isPosInt (n : Nat) : isPosInt (decimal n) = true := by
  have hdigits := decimal_digits n
  obtain ⟨c, rest, heq⟩ := List.exists_cons_of_ne_nil (Nat.toDigits_ne_nil (b := 10) (n := n))
  change decimal n = c :: rest at heq
  rw [heq] at hdigits ⊢
  refine Bool.and_eq_true_iff.mpr ⟨isDigit_of_decDigitValue (hdigits c List.mem_cons_self), ?_⟩
  refine List.all_eq_true.mpr fun d hd => Bool.or_eq_true_iff.mpr (.inl ?_)
  exact isDigit_of_decDigitValue (hdigits d (List.mem_cons_of_mem c hd))

/-- The literal that `std::to_string` writes. -/
def Literal.ofNat (n : Nat) : Literal := ⟨decimal n, decimal_isPosInt n⟩

theorem ne_of_isDigit {c d : Char} (hc : c.isDigit = true) (hd : d.isDigit = false) : c ≠ d := by
  rintro rfl
  rw [hc] at hd
  cases hd

theorem Literal.number_ofNat (n : Nat) : (Literal.ofNat n).number = n := by
  have hplain : (decimal n).filter (· ≠ '_') = decimal n := by
    refine List.filter_eq_self.mpr fun c hc => decide_eq_true ?_
    exact ne_of_isDigit (isDigit_of_decDigitValue (decimal_digits n c hc)) (by decide)
  rw [Literal.number, Literal.ofNat, hplain, numberOf_decimal]

/-- A literal starts with a digit, and without its underscores it has digits only. -/
theorem Literal.digits (literal : Literal) : ∃ c rest, literal.lexeme = c :: rest ∧
    c.isDigit = true ∧ (∀ d ∈ rest, isPosIntRest d = true) ∧
    ∃ plain, literal.lexeme.filter (· ≠ '_') = c :: plain ∧ ∀ d ∈ c :: plain, d.isDigit = true := by
  obtain ⟨lexeme, hlexeme⟩ := literal
  cases lexeme with
  | nil => cases hlexeme
  | cons c rest =>
    obtain ⟨hc, hrest⟩ := Bool.and_eq_true_iff.mp hlexeme
    have hrest := List.all_eq_true.mp hrest
    refine ⟨c, rest, rfl, hc, hrest, rest.filter (· ≠ '_'), ?_, ?_⟩
    · exact List.filter_cons_of_pos (decide_eq_true (ne_of_isDigit hc (by decide)))
    · intro d hd
      rcases List.mem_cons.mp hd with rfl | hd
      · exact hc
      · obtain ⟨hmem, hplain⟩ := List.mem_filter.mp hd
        exact (Bool.or_eq_true_iff.mp (hrest d hmem)).resolve_right fun h =>
          of_decide_eq_true hplain (of_decide_eq_true h)

theorem Literal.not_mem (literal : Literal) {c : Char} (hdigit : c.isDigit = false) (hc : c ≠ '_') :
    c ∉ literal.lexeme := by
  obtain ⟨d, rest, hlexeme, hd, hrest, -⟩ := literal.digits
  rw [hlexeme]
  intro hmem
  rcases List.mem_cons.mp hmem with rfl | hmem
  · rw [hd] at hdigit
    cases hdigit
  · rcases Bool.or_eq_true_iff.mp (hrest c hmem) with h | h
    · rw [h] at hdigit
      cases hdigit
    · exact hc (of_decide_eq_true h)

/-- A literal is read as the number it writes, where that has 32 bits. -/
theorem integerLiteral_fits (literal : Literal) (hfits : literal.number < uint32Size) :
    integerLiteral literal.lexeme = .ok (UInt32.ofNat literal.number) := by
  obtain ⟨c, rest, hlexeme, -, -, plain, hplain, hdigits⟩ := literal.digits
  have htext : literal.number = numberOf (c :: plain) := congrArg numberOf hplain
  rw [htext] at hfits ⊢
  have hstoul : stoul (c :: plain) = some (some (numberOf (c :: plain))) := by
    rw [stoul, List.takeWhile_eq_self_iff.mpr hdigits]
    exact if_pos (lt_trans hfits (by decide))
  rw [integerLiteral, if_neg (by simp [hlexeme]), if_neg (literal.not_mem (by decide) (by decide)),
    if_neg (literal.not_mem (by decide) (by decide))]
  simp only [hplain, hstoul]
  exact if_pos hfits

theorem integerLiteral_throws (literal : Literal) (hlarge : uint32Size ≤ literal.number) :
    ∃ fault, integerLiteral literal.lexeme = .error fault := by
  obtain ⟨c, rest, hlexeme, -, -, plain, hplain, hdigits⟩ := literal.digits
  have htext : literal.number = numberOf (c :: plain) := congrArg numberOf hplain
  rw [htext] at hlarge
  rw [integerLiteral, if_neg (by simp [hlexeme]), if_neg (literal.not_mem (by decide) (by decide)),
    if_neg (literal.not_mem (by decide) (by decide))]
  have hstoul : stoul (c :: plain) =
      if numberOf (c :: plain) < uint64Size then some (some (numberOf (c :: plain)))
      else some none := by
    rw [stoul, List.takeWhile_eq_self_iff.mpr hdigits]
  simp only [hplain, hstoul]
  split_ifs
  · exact ⟨_, if_neg (Nat.not_lt.mpr hlarge)⟩
  · exact ⟨_, rfl⟩

/-! ### Scanning the text of an expression -/

def EndsLiteral (c : Char) : Prop := isPosIntRest c = false

theorem blank_endsLiteral : EndsLiteral ' ' := rfl

theorem rightParen_endsLiteral : EndsLiteral ')' := rfl

theorem length_at_digit {c : Char} (hc : c.isDigit = true) (text : Text) :
    commentOpeningLength (c :: text) = 0 ∧ lineCommentLength (c :: text) = 0 ∧
      (c :: text).takeWhile isBlank = [] ∧
      ∀ d, d.isDigit = false → c ≠ d := by
  have hother : ∀ d, d.isDigit = false → c ≠ d := fun d hd => ne_of_isDigit hc hd
  have hslash := hother '/' (by decide)
  refine ⟨?_, ?_, List.takeWhile_cons_of_neg ?_, hother⟩
  · rw [commentOpeningLength]
    simp [hslash]
  · rw [lineCommentLength]
    simp [hslash]
  · simp [isBlank, hother ' ' (by decide), hother '\r' (by decide), hother '\t' (by decide)]

theorem scan_leftParen (text : Text) : scan rules ('(' :: text) = .leftParen :: scan rules text := by
  have hlongest : longest (['('] ++ text) rules = some (characterRule '(' .leftParen) := by
    simp [longest, rules, characterRule, otherRule, posIntLength, lineCommentLength,
      commentOpeningLength, isBlank]
  exact scan_lexeme (List.cons_ne_nil _ _) hlongest rfl

theorem scan_rightParen (text : Text) :
    scan rules (')' :: text) = .rightParen :: scan rules text := by
  have hlongest : longest ([')'] ++ text) rules = some (characterRule ')' .rightParen) := by
    simp [longest, rules, characterRule, otherRule, posIntLength, lineCommentLength,
      commentOpeningLength, isBlank]
  exact scan_lexeme (List.cons_ne_nil _ _) hlongest rfl

/-- An operator with a blank behind it, so that a slash opens no comment. -/
theorem scan_operator (kind : AST.Operator) (text : Text) :
    scan rules (kind.text :: ' ' :: text) = kind.token :: scan rules (' ' :: text) := by
  have hlongest : longest ([kind.text] ++ ' ' :: text) rules =
      some (characterRule kind.text kind.token) := by
    cases kind <;> simp [longest, rules, characterRule, otherRule, posIntLength, lineCommentLength,
      commentOpeningLength, isBlank, AST.Operator.text, AST.Operator.token] <;> rfl
  refine scan_lexeme (List.cons_ne_nil _ _) hlongest ?_
  exact if_pos rfl

theorem scan_blank {text : Text} (htext : StopsAt (fun c => isBlank c = false) text) :
    scan rules (' ' :: text) = scan rules text := by
  have hstop : text.takeWhile isBlank = [] := by
    cases text with
    | nil => rfl
    | cons d text => exact List.takeWhile_cons_of_neg (by rw [htext d rfl]; decide)
  have hblank : (' ' :: text).takeWhile isBlank = [' '] := by
    rw [List.takeWhile_cons_of_pos (by decide), hstop]
  have hlongest : longest ([' '] ++ text) rules =
      some ⟨fun text => (text.takeWhile isBlank).length, fun _ => none⟩ := by
    change longest _ (rules.take 1 ++ ⟨fun text => (text.takeWhile isBlank).length, fun _ => none⟩ ::
      rules.drop 2) = _
    apply longest_of_maximal
    · simp [hblank]
    · simp [rules, hblank, commentOpeningLength]
    · simp [rules, hblank, characterRule, otherRule, posIntLength, lineCommentLength]
  refine scan_lexeme (List.cons_ne_nil _ _) hlongest ?_
  simp [hblank]

theorem scan_literal (literal : Literal) {text : Text} (htext : StopsAt EndsLiteral text) :
    scan rules (literal.lexeme ++ text) = literal.token :: scan rules text := by
  obtain ⟨c, rest, hlexeme, hc, hrest, -⟩ := literal.digits
  have hstop : text.takeWhile isPosIntRest = [] := by
    cases text with
    | nil => rfl
    | cons d text => exact List.takeWhile_cons_of_neg (by rw [htext d rfl]; decide)
  have hlength : posIntLength (c :: (rest ++ text)) = (c :: rest).length := by
    rw [posIntLength, if_pos hc, List.takeWhile_append_of_pos hrest, hstop, List.append_nil,
      List.length_cons, Nat.add_comm]
  obtain ⟨hopening, hcomment, hblank, hother⟩ := length_at_digit hc (rest ++ text)
  have hplain : c ≠ '(' ∧ c ≠ '-' ∧ c ≠ '%' ∧ c ≠ '+' ∧ c ≠ ')' ∧ c ≠ '/' ∧ c ≠ '*' ∧ c ≠ '\n' := by
    refine ⟨?_, ?_, ?_, ?_, ?_, ?_, ?_, ?_⟩ <;> exact hother _ (by decide)
  rw [Literal.token]
  by_cases hzero : literal.lexeme = ['0']
  · obtain ⟨rfl, rfl⟩ := List.cons.inj (hlexeme.symm.trans hzero)
    have hlongest : longest (['0'] ++ text) rules = some (characterRule '0' .zero) := by
      change longest _ (rules.take 6 ++ characterRule '0' .zero :: rules.drop 7) = _
      apply longest_of_maximal
      · exact Nat.one_pos
      · simp_all [rules, characterRule]
      · simp_all [rules, characterRule, otherRule]
    rw [if_pos hzero, hzero]
    exact scan_lexeme (List.cons_ne_nil _ _) hlongest rfl
  by_cases hone : literal.lexeme = ['1']
  · obtain ⟨rfl, rfl⟩ := List.cons.inj (hlexeme.symm.trans hone)
    have hlongest : longest (['1'] ++ text) rules = some (characterRule '1' .one) := by
      change longest _ (rules.take 7 ++ characterRule '1' .one :: rules.drop 8) = _
      apply longest_of_maximal
      · exact Nat.one_pos
      · simp_all [rules, characterRule]
      · simp_all [rules, characterRule, otherRule]
    rw [if_neg hzero, if_pos hone, hone]
    exact scan_lexeme (List.cons_ne_nil _ _) hlongest rfl
  · rw [if_neg hzero, if_neg hone]
    have hlong : c = '0' ∨ c = '1' → rest ≠ [] := by
      rintro (rfl | rfl) rfl
      · exact hzero hlexeme
      · exact hone hlexeme
    have hlongest : longest (literal.lexeme ++ text) rules =
        some ⟨posIntLength, fun lexeme => some (.posInt lexeme)⟩ := by
      rw [hlexeme]
      change longest _ (rules.take 10 ++ ⟨posIntLength, fun lexeme => some (.posInt lexeme)⟩ ::
        rules.drop 11) = _
      apply longest_of_maximal
      · simp [hlength]
      · have hpos : (if c = '0' then 1 else 0) < (c :: rest).length ∧
            (if c = '1' then 1 else 0) < (c :: rest).length := by
          constructor <;>
          · split_ifs with h
            · simpa [List.length_pos_iff] using hlong (by simp [h])
            · simp
        simp_all [rules, characterRule]
      · simp_all [rules, characterRule, otherRule]
    refine scan_lexeme (by simp [hlexeme]) hlongest ?_
    rw [hlexeme]
    exact hlength

end Icl

namespace AST

open Icl MaximalMunch

def IntegerExpr.Plain : IntegerExpr → Prop
  | .integerLiteral _ => True
  | .integerBinaryExpr _ left right => left.Plain ∧ right.Plain
  | .parenthesizedExpr operand => operand.Plain
  | .integerExprRef _ => False

/-- The text of such an expression does not depend on what is in memory. -/
theorem asTextIn_plain (nodes : Nodes) {expr : IntegerExpr} (hplain : expr.Plain) :
    Fuel.Ends (fun fuel => (expr.asTextIn nodes fuel).run) (.ok expr.asText) := by
  induction expr with
  | integerLiteral value => exact Fuel.Ends.succ (Fuel.ends_some _)
  | integerBinaryExpr kind left right ihleft ihright =>
    obtain ⟨enough, hleft⟩ := ihleft hplain.1
    obtain ⟨enough', hright⟩ := ihright hplain.2
    refine Fuel.Ends.succ ⟨max enough enough', fun fuel hfuel => ?_⟩
    have hleft := hleft fuel (Nat.le_trans (Nat.le_max_left _ _) hfuel)
    have hright := hright fuel (Nat.le_trans (Nat.le_max_right _ _) hfuel)
    refine Fuel.run_bind_eq_some_iff.mpr (.inr ⟨_, hleft, ?_⟩)
    exact Fuel.run_bind_eq_some_iff.mpr (.inr ⟨_, hright, rfl⟩)
  | parenthesizedExpr operand ih =>
    obtain ⟨enough, hoperand⟩ := ih hplain
    refine Fuel.Ends.succ ⟨enough, fun fuel hfuel => ?_⟩
    exact Fuel.run_bind_eq_some_iff.mpr (.inr ⟨_, hoperand fuel hfuel, rfl⟩)
  | integerExprRef node => exact absurd hplain id

def IntegerExpr.tokens : IntegerExpr → List Token
  | .integerLiteral value => [(Literal.ofNat value.toNat).token]
  | .integerBinaryExpr kind left right => left.tokens ++ kind.token :: right.tokens
  | .parenthesizedExpr operand => .leftParen :: operand.tokens ++ [.rightParen]
  | .integerExprRef _ => []

theorem asText_head {expr : IntegerExpr} (hplain : expr.Plain) :
    ∃ c text, expr.asText = c :: text ∧ isBlank c = false := by
  induction expr with
  | integerLiteral value =>
    obtain ⟨c, rest, hlexeme, hc, -⟩ := (Literal.ofNat value.toNat).digits
    refine ⟨c, rest, hlexeme, ?_⟩
    simp [isBlank, ne_of_isDigit hc (d := ' ') (by decide), ne_of_isDigit hc (d := '\r') (by decide),
      ne_of_isDigit hc (d := '\t') (by decide)]
  | integerBinaryExpr kind left right ihleft ihright =>
    obtain ⟨c, text, htext, hc⟩ := ihleft hplain.1
    exact ⟨c, _, congrArg (· ++ ' ' :: kind.text :: ' ' :: right.asText) htext, hc⟩
  | parenthesizedExpr operand ih => exact ⟨'(', _, rfl, by decide⟩
  | integerExprRef node => exact absurd hplain id

theorem asText_scans {expr : IntegerExpr} (hplain : expr.Plain) :
    Scans rules EndsLiteral expr.asText expr.tokens := by
  induction expr with
  | integerLiteral value => exact fun text htext => scan_literal (Literal.ofNat value.toNat) htext
  | integerBinaryExpr kind left right ihleft ihright =>
    intro text htext
    obtain ⟨c, rest, hright, hc⟩ := asText_head hplain.2
    have hblank : StopsAt (fun c => isBlank c = false) (right.asText ++ text) := by
      rw [hright]
      exact @StopsAt.cons _ (fun c => isBlank c = false) c hc _
    have hoperator : StopsAt (fun c => isBlank c = false)
        (kind.text :: ' ' :: (right.asText ++ text)) := by
      cases kind <;> exact @StopsAt.cons _ (fun c => isBlank c = false) _ rfl _
    have hleft := ihleft hplain.1 (' ' :: kind.text :: ' ' :: (right.asText ++ text))
      (.cons blank_endsLiteral _)
    calc scan rules ((IntegerExpr.integerBinaryExpr kind left right).asText ++ text)
        = scan rules (left.asText ++ ' ' :: kind.text :: ' ' :: (right.asText ++ text)) := by
          rw [IntegerExpr.asText, List.append_assoc]
          rfl
      _ = left.tokens ++ kind.token :: (right.tokens ++ scan rules text) := by
          rw [hleft, scan_blank hoperator, scan_operator, scan_blank hblank,
            ihright hplain.2 text htext]
      _ = (IntegerExpr.integerBinaryExpr kind left right).tokens ++ scan rules text := by
          rw [IntegerExpr.tokens, List.append_assoc]
          rfl
  | parenthesizedExpr operand ih =>
    intro text htext
    have hoperand := ih hplain (')' :: text) (.cons rightParen_endsLiteral _)
    calc scan rules (operand.parenthesizedExpr.asText ++ text)
        = scan rules ('(' :: (operand.asText ++ ')' :: text)) := by
          rw [IntegerExpr.asText, List.cons_append, List.cons_append, List.append_assoc]
          rfl
      _ = .leftParen :: (operand.tokens ++ .rightParen :: scan rules text) := by
          rw [scan_leftParen, hoperand, scan_rightParen]
      _ = operand.parenthesizedExpr.tokens ++ scan rules text := by
          rw [IntegerExpr.tokens, List.cons_append, List.cons_append, List.append_assoc]
          rfl
  | integerExprRef node => exact absurd hplain id

theorem lex_asText {expr : IntegerExpr} (hplain : expr.Plain) : lex expr.asText = expr.tokens :=
  (asText_scans hplain).scan_eq

end AST

end Mast
