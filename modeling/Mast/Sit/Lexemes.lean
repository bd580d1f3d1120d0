import Mast.BinaryVector.RoundTrip
import Mast.Sit.Lexer

/-!
# Lexemes of SIT texts

What the lexer makes of the pieces that a SIT text is written with, where a delimiter follows them.
-/

namespace Mast

namespace Sit

open BinaryVector (Text decimal)
open MaximalMunch

/-- No number and no word goes on with this character. -/
def Delimiter (c : Char) : Prop := c ≠ '_' ∧ c.isAlphanum = false

/-- The tokens of a piece, whatever follows it after a delimiter. -/
abbrev LexesTo (piece : Text) (tokens : List Token) : Prop := Scans rules Delimiter piece tokens

theorem digit_alphanum {c : Char} (hc : c.isDigit = true) : c.isAlphanum = true := by
  simp [Char.isAlphanum, hc]

theorem digit_not_alpha {c : Char} (hc : c.isDigit = true) : c.isAlpha = false := by
  simp only [Char.isDigit, Char.isAlpha, Char.isUpper, Char.isLower, decide_eq_true_eq,
    Bool.and_eq_true, Bool.or_eq_false_iff, Bool.and_eq_false_imp] at *
  grind

/-! ### Repetitions -/

section Repetition

variable {next : Char → Bool}

theorem repeatedLength_cons {c : Char} (hc : next c = true) (text : Text) :
    repeatedLength next (c :: text) = 1 + repeatedLength next text := by
  rw [repeatedLength.eq_def]
  exact if_pos hc

theorem repeatedLength_underscore {d : Char} (hunderscore : next '_' = false) (hd : next d = true)
    (text : Text) : repeatedLength next ('_' :: d :: text) = 2 + repeatedLength next text := by
  rw [repeatedLength.eq_def]
  simp [hunderscore, hd]

theorem repeatedLength_other {c : Char} (hc : next c = false) (hunderscore : c ≠ '_') (text : Text) :
    repeatedLength next (c :: text) = 0 := by
  rw [repeatedLength.eq_def]
  simp only [hc, Bool.false_eq_true, if_false]
  split
  · exact absurd rfl hunderscore
  · rfl

/-- A text that is one repetition is made of characters with or without an underscore. -/
theorem repeated_induction {motive : Text → Prop} (hunderscore : next '_' = false)
    (hnil : motive []) (hcons : ∀ c text, next c = true → motive text → motive (c :: text))
    (hpair : ∀ d text, next d = true → motive text → motive ('_' :: d :: text)) {lexeme : Text}
    (hlexeme : repeatedLength next lexeme = lexeme.length) : motive lexeme := by
  induction hlength : lexeme.length using Nat.strongRecOn generalizing lexeme with
  | ind length ih =>
    cases lexeme with
    | nil => exact hnil
    | cons c text =>
      rw [List.length_cons] at hlexeme hlength
      by_cases hc : next c = true
      · rw [repeatedLength_cons hc] at hlexeme
        exact hcons c text hc (ih text.length (by omega) (by omega) rfl)
      · by_cases hpaired : c = '_'
        · subst hpaired
          rw [repeatedLength.eq_def] at hlexeme
          cases text with
          | nil => simp [hunderscore] at hlexeme
          | cons d text =>
            rw [List.length_cons] at hlexeme hlength
            by_cases hd : next d = true
            · simp only [hunderscore, hd, Bool.false_eq_true, if_false, if_true] at hlexeme
              exact hpair d text hd (ih text.length (by omega) (by omega) rfl)
            · simp [hunderscore, hd] at hlexeme
        · rw [repeatedLength_other (by simpa using hc) hpaired] at hlexeme
          omega

theorem repeatedLength_stops (hnext : ∀ c, next c = true → c.isAlphanum = true)
    {text : Text} (htext : StopsAt Delimiter text) : repeatedLength next text = 0 := by
  cases text with
  | nil => rfl
  | cons c text =>
    obtain ⟨hunderscore, hplain⟩ := htext c rfl
    apply repeatedLength_other _ hunderscore
    by_contra hyes
    rw [hnext c (by simpa using hyes)] at hplain
    exact absurd hplain (by decide)

theorem repeatedLength_append (hnext : ∀ c, next c = true → c.isAlphanum = true)
    {lexeme text : Text} (hlexeme : repeatedLength next lexeme = lexeme.length)
    (htext : StopsAt Delimiter text) : repeatedLength next (lexeme ++ text) = lexeme.length := by
  have hunderscore : next '_' = false := by
    by_contra hyes
    exact absurd (hnext '_' (by simpa using hyes)) (by decide)
  apply repeated_induction (motive := fun lexeme =>
    repeatedLength next (lexeme ++ text) = lexeme.length) hunderscore _ _ _ hlexeme
  · exact repeatedLength_stops hnext htext
  · intro c lexeme hc ih
    rw [List.cons_append, repeatedLength_cons hc, ih, List.length_cons, Nat.add_comm]
  · intro d lexeme hd ih
    rw [List.cons_append, List.cons_append, repeatedLength_underscore hunderscore hd, ih]
    simp only [List.length_cons]
    omega

theorem repeatedLength_all {lexeme : Text} (hall : ∀ c ∈ lexeme, next c = true) :
    repeatedLength next lexeme = lexeme.length := by
  induction lexeme with
  | nil => rfl
  | cons c lexeme ih =>
    rw [repeatedLength_cons (hall c List.mem_cons_self),
      ih fun d hd => hall d (List.mem_cons_of_mem c hd), List.length_cons, Nat.add_comm]

end Repetition

theorem groupedLength_append {first next : Char → Bool}
    (hnext : ∀ c, next c = true → c.isAlphanum = true) {lexeme text : Text} (hne : lexeme ≠ [])
    (hlexeme : groupedLength first next lexeme = lexeme.length)
    (htext : StopsAt Delimiter text) : groupedLength first next (lexeme ++ text) = lexeme.length := by
  cases lexeme with
  | nil => exact absurd rfl hne
  | cons c lexeme =>
    rw [groupedLength] at hlexeme
    rw [List.cons_append, groupedLength]
    split_ifs at hlexeme ⊢ with hc
    · have hrest : repeatedLength next lexeme = lexeme.length := by
        rw [List.length_cons] at hlexeme
        omega
      rw [repeatedLength_append hnext hrest htext, List.length_cons, Nat.add_comm]

/-! ### The rules that do not match -/

section FirstCharacter

variable {c : Char} {text : Text}

theorem integerLength_zero (hc : c.isDigit = false) : integerLength (c :: text) = 0 := by
  simp [integerLength, groupedLength, hc]

theorem wordLength_zero (hc : c.isAlpha = false) : wordLength (c :: text) = 0 := by
  simp [wordLength, groupedLength, hc]

theorem basedIntegerLength_zero (hc : c ≠ '0') : basedIntegerLength (c :: text) = 0 := by
  unfold basedIntegerLength
  split
  · rename_i heq
    exact absurd (List.cons.inj heq).1 hc
  · rfl

theorem quotedStringLength_zero (hc : c ≠ '"') : quotedStringLength (c :: text) = 0 := by
  unfold quotedStringLength
  split
  · rename_i heq
    exact absurd (List.cons.inj heq).1 hc
  · rfl

theorem punctuationRule_zero {d : Char} (token : Token) (hc : c ≠ d) :
    (punctuationRule d token).length (c :: text) = 0 := by
  simp [punctuationRule, hc]

end FirstCharacter

theorem mem_rules {rule : Rule Char Token} (hrule : rule ∈ rules) :
    rule = integerRule ∨ rule = wordRule ∨ rule = basedIntegerRule ∨ rule = quotedStringRule ∨
      ∃ entry ∈ punctuations, rule = punctuationRule entry.1 entry.2 := by
  simp only [rules, List.cons_append, List.nil_append, List.mem_cons, List.mem_map] at hrule
  tauto

theorem punctuations_plain : ∀ entry ∈ punctuations,
    entry.1.isAlphanum = false ∧ entry.1 ≠ '"' ∧ entry.1 ≠ ' ' ∧ entry.1 ≠ '\n' := by
  decide

theorem ne_punctuation {c : Char} (hc : c.isAlphanum = true) : ∀ entry ∈ punctuations, c ≠ entry.1 := by
  rintro entry hentry rfl
  rw [(punctuations_plain entry hentry).1] at hc
  exact absurd hc (by decide)

theorem ne_of_alphanum {c d : Char} (hc : c.isAlphanum = true) (hd : d.isAlphanum = false) : c ≠ d := by
  rintro rfl
  rw [hc] at hd
  exact absurd hd (by decide)

/-! ### The pieces of a printed text -/

theorem lexesTo_after_blanks {blanks piece : Text} {tokens : List Token}
    (hblanks : ∀ c ∈ blanks, c = ' ' ∨ c = '\n') (h : LexesTo piece tokens) :
    LexesTo (blanks ++ piece) tokens := by
  refine h.after_dropped fun c hc text rule hrule => ?_
  have hblank : c.isDigit = false ∧ c.isAlpha = false ∧ c ≠ '0' ∧ c ≠ '"' ∧
      ∀ entry ∈ punctuations, c ≠ entry.1 := by
    rcases hblanks c hc with rfl | rfl <;> decide
  obtain ⟨hdigit, halpha, hzero, hquote, hpunctuation⟩ := hblank
  rcases mem_rules hrule with rfl | rfl | rfl | rfl | ⟨entry, hentry, rfl⟩
  · exact integerLength_zero hdigit
  · exact wordLength_zero halpha
  · exact basedIntegerLength_zero hzero
  · exact quotedStringLength_zero hquote
  · exact punctuationRule_zero entry.2 (hpunctuation entry hentry)

/-- A word, or a keyword. -/
theorem lexesTo_letters {word : Text} (hne : word ≠ []) (hword : wordLength word = word.length) :
    LexesTo word (wordRule.action word).toList := by
  obtain ⟨c, rest, rfl⟩ := List.exists_cons_of_ne_nil hne
  have halpha : c.isAlpha = true := by
    by_contra hno
    rw [wordLength_zero (by simpa using hno)] at hword
    exact absurd hword (by simp)
  have halphanum : c.isAlphanum = true := by simp [Char.isAlphanum, halpha]
  refine Scans.lexeme (by simp [rules]) hne (fun text htext => ?_) fun text _ other hother hne => ?_
  · exact groupedLength_append (fun _ hd => hd) hne hword htext
  · rcases mem_rules hother with rfl | rfl | rfl | rfl | ⟨entry, hentry, rfl⟩
    · apply integerLength_zero
      by_contra hdigit
      rw [digit_not_alpha (by simpa using hdigit)] at halpha
      exact absurd halpha (by decide)
    · exact absurd rfl hne
    · exact basedIntegerLength_zero fun heq => absurd (heq ▸ halpha) (by decide)
    · exact quotedStringLength_zero (ne_of_alphanum halphanum (by decide))
    · exact punctuationRule_zero entry.2 (ne_punctuation halphanum entry hentry)

theorem lexesTo_word {word : Text} (hword : IsWord word) : LexesTo word [.word word] := by
  have haction : wordRule.action word = some (.word word) := by simp [wordRule, hword.2.2]
  have hletters := lexesTo_letters hword.1 hword.2.1
  rwa [haction] at hletters

theorem lexesTo_keyword : ∀ entry ∈ keywordsTable, LexesTo entry.1 [.keyword entry.2] := by
  have hkeywords : ∀ entry ∈ keywordsTable, entry.1 ≠ [] ∧ wordLength entry.1 = entry.1.length ∧
      findKeyword entry.1 = some entry.2 := by
    decide +kernel
  intro entry hentry
  obtain ⟨hne, hlength, hkeyword⟩ := hkeywords entry hentry
  have haction : wordRule.action entry.1 = some (.keyword entry.2) := by simp [wordRule, hkeyword]
  have hletters := lexesTo_letters hne hlength
  rwa [haction] at hletters

theorem lexesTo_punctuation {c : Char} {token : Token} (hentry : (c, token) ∈ punctuations) :
    LexesTo [c] [token] := by
  obtain ⟨hplain, hquote, -, -⟩ := punctuations_plain _ hentry
  change c.isAlphanum = false at hplain
  have hdigit : c.isDigit = false ∧ c.isAlpha = false := by
    simpa [Char.isAlphanum, and_comm] using hplain
  have hrule : punctuationRule c token ∈ rules :=
    List.mem_append_right _ (List.mem_map.mpr ⟨_, hentry, rfl⟩)
  refine Scans.lexeme hrule (by simp) (fun text _ => ?_) fun text _ other hother hne => ?_
  · simp [punctuationRule]
  · rcases mem_rules hother with rfl | rfl | rfl | rfl | ⟨entry, hentry', rfl⟩
    · exact integerLength_zero hdigit.1
    · exact wordLength_zero hdigit.2
    · exact basedIntegerLength_zero (ne_of_alphanum (by decide) hplain).symm
    · exact quotedStringLength_zero hquote
    · apply punctuationRule_zero
      intro heq
      have hsame : ∀ e ∈ punctuations, ∀ e' ∈ punctuations, e.1 = e'.1 → e = e' := by decide
      obtain rfl := hsame _ hentry _ hentry' heq
      exact absurd rfl hne

theorem decimal_digits (n : Nat) : ∀ c ∈ decimal n, c.isDigit = true :=
  fun _ hc => Nat.isDigit_of_mem_toDigits (by decide) (by decide) hc

theorem atoi_decimal {n : Nat} (hn : n < uint32Size) : atoi (decimal n) = n := by
  rw [atoi, List.takeWhile_eq_self_iff.mpr (decimal_digits n), decimal,
    Nat.ofDigitChars_ten_toDigits, Nat.mod_eq_of_lt hn]

/-- The zero is written with a digit that also starts the integers with a base. -/
theorem basedIntegerLength_decimal (n : Nat) {text : Text} (htext : StopsAt Delimiter text) :
    basedIntegerLength (decimal n ++ text) = 0 := by
  by_cases hzero : n = 0
  · subst hzero
    cases text with
    | nil => rfl
    | cons c text =>
      have hbase : c ∉ ['B', 'b', 'O', 'o', 'X', 'x'] := by
        intro hc
        have hletters : ∀ d ∈ ['B', 'b', 'O', 'o', 'X', 'x'], d.isAlphanum = true :=
          List.all_eq_true.mp (by decide)
        exact ne_of_alphanum (hletters c hc) (htext c rfl).2 rfl
      have hdigits : decimal 0 ++ c :: text = '0' :: c :: text := rfl
      rw [hdigits, basedIntegerLength]
      exact if_neg hbase
  · obtain ⟨c, rest, hdigits, hlow, -⟩ := BinaryVector.decimal_head (Nat.pos_of_ne_zero hzero)
    rw [hdigits, List.cons_append]
    apply basedIntegerLength_zero
    rintro rfl
    exact absurd hlow (by decide)

theorem lexesTo_decimal {n : Nat} (hn : n < uint32Size) :
    LexesTo (decimal n) [.decimalLiteral n] := by
  have hdigits := decimal_digits n
  have hne : decimal n ≠ [] := Nat.toDigits_ne_nil
  have haction : integerRule.action (decimal n) = some (.decimalLiteral n) := by
    simp [integerRule, atoi_decimal hn]
  have hlexeme : LexesTo (decimal n) (integerRule.action (decimal n)).toList := by
    refine Scans.lexeme (by simp [rules]) hne (fun text htext => ?_)
      fun text htext other hother hother' => ?_
    · refine groupedLength_append (fun _ hd => digit_alphanum hd) hne ?_ htext
      obtain ⟨c, rest, heq⟩ := List.exists_cons_of_ne_nil hne
      rw [heq] at hdigits ⊢
      rw [groupedLength, if_pos (hdigits c List.mem_cons_self),
        repeatedLength_all fun d hd => hdigits d (List.mem_cons_of_mem c hd), List.length_cons,
        Nat.add_comm]
    · have hbased := basedIntegerLength_decimal n htext
      obtain ⟨c, rest, heq⟩ := List.exists_cons_of_ne_nil hne
      rw [heq] at hdigits hbased ⊢
      have hc := hdigits c List.mem_cons_self
      rcases mem_rules hother with rfl | rfl | rfl | rfl | ⟨entry, hentry, rfl⟩
      · exact absurd rfl hother'
      · exact wordLength_zero (digit_not_alpha hc)
      · exact hbased
      · exact quotedStringLength_zero (ne_of_alphanum (digit_alphanum hc) (by decide))
      · exact punctuationRule_zero entry.2 (ne_punctuation (digit_alphanum hc) entry hentry)
  rwa [haction] at hlexeme

theorem lexesTo_quoted {content : Text} (hcontent : ∀ c ∈ content, isStringContent c = true) :
    LexesTo ('"' :: content ++ ['"']) [.quotedString ('"' :: content ++ ['"'])] := by
  have hrule : quotedStringRule ∈ rules := by simp [rules]
  refine Scans.lexeme hrule (by simp) (fun text _ => ?_) fun text _ other hother hother' => ?_
  · have hstop : isStringContent '"' = false := by decide
    have hsplit : (content ++ '"' :: text).takeWhile isStringContent = content := by
      rw [List.takeWhile_append_of_pos hcontent, List.takeWhile_cons_of_neg (by simp [hstop]),
        List.append_nil]
    simp [quotedStringRule, quotedStringLength, hsplit]
  · rw [List.cons_append, List.cons_append]
    rcases mem_rules hother with rfl | rfl | rfl | rfl | ⟨entry, hentry, rfl⟩
    · rfl
    · rfl
    · rfl
    · exact absurd rfl hother'
    · exact punctuationRule_zero entry.2 (punctuations_plain entry hentry).2.1.symm

end Sit

end Mast
