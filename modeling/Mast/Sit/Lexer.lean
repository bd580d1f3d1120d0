import Mathlib
import Mast.BinaryVector.Print
import Mast.Lib.MaximalMunch

/-!
# The lexer of SIT texts

The rules of `SIT_Lexer.l`. The rules for a line feed and for any other character return no token: such a character is dropped.
-/

namespace Mast

namespace Sit

open BinaryVector (Text)
open MaximalMunch

/-- The keywords of `keywords_table`. -/
inductive Keyword
  | chain
  | register
  | linker
  | accessInterface
  | transparent
  | holdValue
  | bypass
  | sib
  | post
  | pre
  | high
  | low
  | reverse
  | mib
  | wrapper1500
  | jtagTap
  | pdl
  | instanceKeyword
  | of
  | translator
  | brocade
  | streamer
  | startAtZero
  | keepOpen
  deriving DecidableEq

inductive Token
  | word (text : Text)
  | keyword (keyword : Keyword)
  | basedInteger (text : Text)
  | quotedString (text : Text)
  | decimalLiteral (value : Nat)
  | startHierarchy
  | endHierarchy
  | semicolon
  | dot
  | backslash
  | slash
  | leftBracket
  | rightBracket
  | leftParenthesis
  | rightParenthesis
  | comma
  deriving DecidableEq

def keywordsTable : List (Text × Keyword) :=
  [("CHAIN".toList, .chain), ("REGISTER".toList, .register), ("LINKER".toList, .linker),
    ("ACCESS_INTERFACE".toList, .accessInterface), ("NOT_IN_PATH".toList, .transparent),
    ("Hold_value".toList, .holdValue), ("Bypass".toList, .bypass), ("SIB".toList, .sib),
    ("POST".toList, .post), ("PRE".toList, .pre), ("HIGH".toList, .high), ("LOW".toList, .low),
    ("REVERSE".toList, .reverse), ("MIB".toList, .mib), ("WRAPPER_1500".toList, .wrapper1500),
    ("JTAG_TAP".toList, .jtagTap), ("PDL".toList, .pdl), ("INSTANCE".toList, .instanceKeyword),
    ("OF".toList, .of), ("TRANSLATOR".toList, .translator), ("BROCADE_Mux".toList, .brocade),
    ("STREAMER".toList, .streamer), ("STARTATZERO".toList, .startAtZero),
    ("KeepOpen".toList, .keepOpen)]

def findKeyword (word : Text) : Option Keyword :=
  (keywordsTable.find? (·.1 = word)).map (·.2)

/-! ### Character classes and lexemes -/

/-- `extended_digit`. -/
def isExtendedDigit (c : Char) : Bool :=
  c.isDigit || ('a' ≤ c && c ≤ 'f') || ('A' ≤ c && c ≤ 'F')

/-- `string_content`. -/
def isStringContent (c : Char) : Bool :=
  c.isAlphanum ||
    c ∈ ['<', '>', '[', ']', '(', ')', '\x7b', '\x7d', '!', '?', ',', '.', ';', ':', '/', '*', '+',
      '-', '^', '~', '%', '#', '&', '\'', '\\', '=', '_', '|', ' ', '\t', '$', '@', '\x60']

/-- The length of the longest repetition of an optional underscore and a character. -/
def repeatedLength (next : Char → Bool) : Text → Nat
  | [] => 0
  | c :: text =>
    if next c then 1 + repeatedLength next text
    else
      match c, text with
      | '_', d :: text => if next d then 2 + repeatedLength next text else 0
      | _, _ => 0

/-- A first character, and such a repetition after it. -/
def groupedLength (first next : Char → Bool) : Text → Nat
  | [] => 0
  | c :: text => if first c then 1 + repeatedLength next text else 0

def integerLength : Text → Nat := groupedLength Char.isDigit Char.isDigit

def wordLength : Text → Nat := groupedLength Char.isAlpha Char.isAlphanum

/-- The length of the longest repetition of two extended digits with an optional underscore between them. -/
def pairedLength : Text → Nat
  | c :: d :: text =>
    if ¬isExtendedDigit c then 0
    else if isExtendedDigit d then 2 + pairedLength text
    else
      match d, text with
      | '_', e :: text => if isExtendedDigit e then 3 + pairedLength text else 0
      | _, _ => 0
  | _ => 0

/-- A `base_specifier` and extended digits; the rule takes them in pairs, and none will do. -/
def basedIntegerLength : Text → Nat
  | '0' :: base :: text =>
    if base ∈ ['B', 'b', 'O', 'o', 'X', 'x'] then 2 + pairedLength text else 0
  | _ => 0

def quotedStringLength : Text → Nat
  | '"' :: text =>
    let content := text.takeWhile isStringContent
    if (text.drop content.length).head? = some '"' then content.length + 2 else 0
  | _ => 0

/-- `atoi` of a lexeme that starts with a digit, as the `uint32_t` it is built into. -/
def atoi (lexeme : Text) : Nat :=
  Nat.ofDigitChars 10 (lexeme.takeWhile Char.isDigit) 0 % uint32Size

/-! ### Rules -/

def integerRule : Rule Char Token := ⟨integerLength, fun lexeme => some (.decimalLiteral (atoi lexeme))⟩

def wordRule : Rule Char Token where
  length := wordLength
  action lexeme :=
    match findKeyword lexeme with
    | some keyword => some (.keyword keyword)
    | none => some (.word lexeme)

def basedIntegerRule : Rule Char Token := ⟨basedIntegerLength, fun lexeme => some (.basedInteger lexeme)⟩

def quotedStringRule : Rule Char Token := ⟨quotedStringLength, fun lexeme => some (.quotedString lexeme)⟩

def punctuationRule (c : Char) (token : Token) : Rule Char Token :=
  ⟨fun text => if text.head? = some c then 1 else 0, fun _ => some token⟩

def punctuations : List (Char × Token) :=
  [('\x7b', .startHierarchy), ('\x7d', .endHierarchy), (':', .semicolon), ('.', .dot),
    ('\\', .backslash), ('/', .slash), ('[', .leftBracket), (']', .rightBracket),
    ('(', .leftParenthesis), (')', .rightParenthesis), (',', .comma)]

def rules : List (Rule Char Token) :=
  [integerRule, wordRule, basedIntegerRule, quotedStringRule] ++
    punctuations.map fun entry => punctuationRule entry.1 entry.2

def lex (text : Text) : List Token := scan rules text

/-- The lexer reads the text as one word that is no keyword. -/
def IsWord (text : Text) : Prop :=
  text ≠ [] ∧ wordLength text = text.length ∧ findKeyword text = none

instance (text : Text) : Decidable (IsWord text) := inferInstanceAs (Decidable (_ ∧ _ ∧ _))

end Sit

end Mast
