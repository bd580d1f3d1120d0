import Mast.BinaryVector.Integers
import Mast.BinaryVector.RoundTrip

/-!
# Decimal texts

`CreateFromDecString` reads digits into 64 bits and checks every step for overflow; the number before a quote is the size, which it keeps in 32 bits and gives to `Append` in 8. What it reads from a text is followed here digit by digit, for the size and for the value.
-/

namespace Mast

open BitPacking

namespace BinaryVector

/-- A call that throws an exception. -/
def Throws {α : Type} (result : Except Fault α) : Prop :=
  ∃ fault, fault ≠ .undefinedBehaviour ∧ result = .error fault

/-- The number that digits make behind those of another number. -/
def continued (number : Nat) (digits : Text) : Nat :=
  digits.foldl (fun number c => 10 * number + (decDigitValue c).getD 0) number

def numberOf (digits : Text) : Nat := continued 0 digits

/-- The characters a decimal text can have between its digits, other than a quote. -/
def isSeparator (c : Char) : Bool := isIgnored c && c ≠ '\''

/-! ### Digits -/

theorem continued_cons {c : Char} {digit : Nat} (hdigit : decDigitValue c = some digit)
    (number : Nat) (digits : Text) :
    continued number (c :: digits) = continued (10 * number + digit) digits := by
  rw [continued, List.foldl_cons, hdigit]
  rfl

theorem le_continued (number : Nat) (digits : Text) : number ≤ continued number digits := by
  induction digits generalizing number with
  | nil => exact Nat.le_refl number
  | cons c digits ih =>
    refine le_trans ?_ (ih (10 * number + (decDigitValue c).getD 0))
    omega

theorem decDigitValue_lt {c : Char} {digit : Nat} (hdigit : decDigitValue c = some digit) :
    digit < 10 := by
  unfold decDigitValue at hdigit
  split at hdigit
  · rename_i hrange
    have hhigh : c.toNat ≤ '9'.toNat := hrange.2
    obtain rfl := Option.some.inj hdigit
    have hnine : '9'.toNat = 57 := rfl
    have hzero : '0'.toNat = 48 := rfl
    omega
  · cases hdigit

theorem eq_zero_of_decDigitValue {c : Char} (hdigit : decDigitValue c = some 0) : c = '0' := by
  unfold decDigitValue at hdigit
  split at hdigit
  · rename_i hrange
    have hlow : '0'.toNat ≤ c.toNat := hrange.1
    have hnone : c.toNat - '0'.toNat = 0 := Option.some.inj hdigit
    apply Char.toNat_inj.mp
    omega
  · cases hdigit

theorem digit_range {c : Char} (hdigit : (decDigitValue c).isSome) (hne : c ≠ '0') :
    '1' ≤ c ∧ c ≤ '9' := by
  unfold decDigitValue at hdigit
  split at hdigit
  · rename_i hrange
    refine ⟨?_, hrange.2⟩
    have hlow : '0'.toNat ≤ c.toNat := hrange.1
    have hother : c.toNat ≠ '0'.toNat := fun h => hne (Char.toNat_inj.mp h)
    show '1'.toNat ≤ c.toNat
    have hzero : '0'.toNat = 48 := rfl
    have hone : '1'.toNat = 49 := rfl
    omega
  · cases hdigit

theorem numberOf_dropWhile (digits : Text) :
    numberOf (digits.dropWhile fun c => decide (c = '0')) = numberOf digits := by
  induction digits with
  | nil => rfl
  | cons c digits ih =>
    by_cases hzero : c = '0'
    · subst hzero
      rw [List.dropWhile_cons_of_pos (by decide), ih]
      rfl
    · rw [List.dropWhile_cons_of_neg (by simpa using hzero)]

theorem decimal_digits (n : Nat) : ∀ c ∈ decimal n, (decDigitValue c).isSome := by
  induction n using Nat.strong_induction_on with
  | _ n ih =>
    unfold decimal
    by_cases hsmall : n < 10
    · rw [Nat.toDigits_of_lt_base hsmall]
      intro c hc
      rw [List.mem_singleton.mp hc, decDigitValue_digitChar hsmall]
      rfl
    · rw [Nat.toDigits_of_base_le (by decide) (by omega)]
      intro c hc
      rcases List.mem_append.mp hc with hfront | hlast
      · exact ih (n / 10) (by omega) c hfront
      · rw [List.mem_singleton.mp hlast, decDigitValue_digitChar (by omega)]
        rfl

theorem numberOf_decimal (n : Nat) : numberOf (decimal n) = n := by
  induction n using Nat.strong_induction_on with
  | _ n ih =>
    unfold decimal numberOf continued
    by_cases hsmall : n < 10
    · rw [Nat.toDigits_of_lt_base hsmall, List.foldl_cons, List.foldl_nil,
        decDigitValue_digitChar hsmall, Option.getD_some]
      omega
    · have hfront := ih (n / 10) (by omega)
      unfold decimal numberOf continued at hfront
      rw [Nat.toDigits_of_base_le (by decide) (by omega), List.foldl_append, hfront, List.foldl_cons,
        List.foldl_nil, decDigitValue_digitChar (by omega), Option.getD_some]
      omega

/-! ### The loop -/

theorem DecReader.appendDigit_eq (reader : DecReader) {digit : Nat} (hdigit : digit < 10) :
    reader.appendDigit digit =
      if 10 * reader.value + digit < uint64Size then
        .ok { reader with parsedDigits := true, value := 10 * reader.value + digit }
      else .error (.outOfRange "Parsed value is out of uint64_t range") := by
  have hsize : uint64Size = 18446744073709551616 := rfl
  have hcomm : reader.value * 10 + digit = 10 * reader.value + digit := by omega
  rw [DecReader.appendDigit]
  by_cases hlarge : reader.value > (uint64Size - 1) / 10
  · rw [if_pos hlarge, if_neg (by omega)]
  · have hwraps : (reader.value * 10 + digit) % uint64Size < reader.value * 10 ↔
        ¬10 * reader.value + digit < uint64Size := by
      rw [hsize] at *
      omega
    rw [if_neg hlarge]
    by_cases hfits : 10 * reader.value + digit < uint64Size
    · rw [if_neg (fun hless => hwraps.mp hless hfits), if_pos hfits, hcomm]
    · rw [if_pos (hwraps.mpr hfits), if_neg hfits]

theorem readDecChar_digit {c : Char} {digit : Nat} (hdigit : decDigitValue c = some digit)
    {reader : DecReader} (hquote : reader.nextMustBeD = false) (text : Text) :
    readDecChar text c reader = reader.appendDigit digit := by
  have hany : ¬(reader.nextMustBeD ∧ c ≠ 'd' ∧ c ≠ 'D') := by simp [hquote]
  simp only [readDecChar, if_neg hany, hdigit]

theorem readDecChars_digits {digits : Text} (hdigits : ∀ c ∈ digits, (decDigitValue c).isSome)
    (reader : DecReader) (hquote : reader.nextMustBeD = false) (hvalue : reader.value < uint64Size)
    (text rest : Text) :
    readDecChars text (digits ++ rest) reader =
      if continued reader.value digits < uint64Size then
        readDecChars text rest { reader with
          parsedDigits := reader.parsedDigits || !digits.isEmpty
          value := continued reader.value digits }
      else .error (.outOfRange "Parsed value is out of uint64_t range") := by
  induction digits generalizing reader with
  | nil =>
    have hsame : { reader with
        parsedDigits := reader.parsedDigits || !([] : Text).isEmpty
        value := continued reader.value [] } = reader := by
      simp [continued]
    rw [List.nil_append, hsame]
    exact (if_pos hvalue).symm
  | cons c digits ih =>
    obtain ⟨digit, hdigit⟩ := Option.isSome_iff_exists.mp (hdigits c List.mem_cons_self)
    have hrest : ∀ c ∈ digits, (decDigitValue c).isSome :=
      fun c hc => hdigits c (List.mem_cons_of_mem _ hc)
    have hle := le_continued (10 * reader.value + digit) digits
    rw [List.cons_append, readDecChars, readDecChar_digit hdigit hquote,
      DecReader.appendDigit_eq _ (decDigitValue_lt hdigit), continued_cons hdigit]
    by_cases hfits : 10 * reader.value + digit < uint64Size
    · have hread := ih hrest { reader with
        parsedDigits := true, value := 10 * reader.value + digit } hquote hfits
      rw [if_pos hfits]
      simp only [hread]
      simp
    · rw [if_neg hfits, if_neg (by omega)]

/-- The number before the quote is the size, in 32 bits. -/
theorem readDecChars_size (size : Nat) (text rest : Text) :
    readDecChars text ('\'' :: 'd' :: rest) ⟨32, true, false, false, size⟩ =
      if size % uint32Size = 0 then .error (.invalidArgument "Bits count must be at least one!")
      else readDecChars text rest ⟨size % uint32Size, true, true, false, 0⟩ := by
  have hquote : readDecChar text '\'' ⟨32, true, false, false, size⟩ =
      if size % uint32Size = 0 then .error (.invalidArgument "Bits count must be at least one!")
      else .ok ⟨size % uint32Size, false, true, true, 0⟩ := rfl
  have hletter : readDecChar text 'd' ⟨size % uint32Size, false, true, true, 0⟩ =
      .ok ⟨size % uint32Size, true, true, false, 0⟩ := rfl
  rw [readDecChars, hquote]
  by_cases hnone : size % uint32Size = 0
  · rw [if_pos hnone, if_pos hnone]
  · rw [if_neg hnone, if_neg hnone]
    simp only [readDecChars, hletter]

theorem not_digit_of_separator {c : Char} (hseparator : isSeparator c = true) :
    c ≠ '\'' ∧ c ≠ 'd' ∧ c ≠ 'D' ∧ isIgnored c = true := by
  rw [isSeparator, Bool.and_eq_true, decide_eq_true_eq] at hseparator
  obtain ⟨hignored, hquote⟩ := hseparator
  refine ⟨hquote, ?_, ?_, hignored⟩
  · rintro rfl
    exact absurd hignored (by decide)
  · rintro rfl
    exact absurd hignored (by decide)

/-- Without digits, separators are skipped and everything else is refused. -/
theorem readDecChars_tail {tail : Text} (htail : ∀ c ∈ tail, decDigitValue c = none)
    (reader : DecReader) (hquote : reader.nextMustBeD = false)
    (hsize : reader.hasSize ∨ reader.parsedDigits ∧ reader.value % uint32Size = 0 ∨ '\'' ∉ tail)
    (text : Text) :
    (∀ c ∈ tail, isSeparator c) ∧ readDecChars text tail reader = .ok reader ∨
      (∃ c ∈ tail, isSeparator c = false) ∧ Throws (readDecChars text tail reader) := by
  induction tail with
  | nil => exact .inl ⟨fun c hc => absurd hc List.not_mem_nil, rfl⟩
  | cons c tail ih =>
    have hnone := htail c List.mem_cons_self
    have hany : ¬(reader.nextMustBeD ∧ c ≠ 'd' ∧ c ≠ 'D') := by simp [hquote]
    by_cases hseparator : isSeparator c = true
    · obtain ⟨hnotQuote, hnotLower, hnotUpper, hignored⟩ := not_digit_of_separator hseparator
      have hread : readDecChar text c reader = .ok reader := by
        simp only [readDecChar, if_neg hany, hnone, if_neg hnotQuote,
          if_neg (not_or.mpr ⟨hnotLower, hnotUpper⟩), if_pos hignored]
      have hrest : reader.hasSize ∨ reader.parsedDigits ∧ reader.value % uint32Size = 0 ∨
          '\'' ∉ tail :=
        hsize.imp_right (Or.imp_right fun hmem h => hmem (List.mem_cons_of_mem _ h))
      have hstep : readDecChars text (c :: tail) reader = readDecChars text tail reader := by
        simp only [readDecChars, hread]
      rw [hstep]
      rcases ih (fun c hc => htail c (List.mem_cons_of_mem _ hc)) hrest with
        ⟨hall, hok⟩ | ⟨⟨other, hother, hbad⟩, hthrows⟩
      · refine .inl ⟨fun other hother => ?_, hok⟩
        rcases List.mem_cons.mp hother with rfl | hother
        · exact hseparator
        · exact hall other hother
      · exact .inr ⟨⟨other, List.mem_cons_of_mem _ hother, hbad⟩, hthrows⟩
    · have hfault : Throws (readDecChar text c reader) := by
        simp only [readDecChar, if_neg hany, hnone]
        by_cases hisQuote : c = '\''
        · subst hisQuote
          rw [if_pos rfl]
          by_cases hsized : reader.hasSize = true
          · rw [if_pos hsized]
            exact ⟨_, Fault.noConfusion, rfl⟩
          · have hzero := (hsize.resolve_left hsized).resolve_right
              (not_not.mpr List.mem_cons_self)
            rw [if_neg hsized, if_pos hzero.1, if_pos hzero.2]
            exact ⟨_, Fault.noConfusion, rfl⟩
        · have hnotIgnored : ¬isIgnored c = true := by
            intro hignored
            exact hseparator (by rw [isSeparator, hignored, Bool.true_and]; exact decide_eq_true hisQuote)
          rw [if_neg hisQuote]
          split_ifs with hletter hsome hx
          · simp [hquote] at hsome
          · exact ⟨_, Fault.noConfusion, rfl⟩
          · exact ⟨_, Fault.noConfusion, rfl⟩
          · exact ⟨_, Fault.noConfusion, rfl⟩
      obtain ⟨fault, hdefined, hread⟩ := hfault
      refine .inr ⟨⟨c, List.mem_cons_self, Bool.not_eq_true _ ▸ hseparator⟩, fault, hdefined, ?_⟩
      simp only [readDecChars, hread]

/-! ### The number that is built -/

theorem integerBits_eq_numberBits {width count : Nat} (hle : count ≤ width) (number : Nat) :
    integerBits (BitVec.ofNat width number) count .right = numberBits count number := by
  apply List.map_congr_left
  intro i hi
  have hin := List.mem_range.mp hi
  have hindex : width - 1 - (width - count + i) = count - 1 - i := by omega
  rw [BitVec.getMsbD_eq_getLsbD, BitVec.getLsbD_ofNat, hindex, decide_eq_true (by omega),
    decide_eq_true (by omega), Bool.true_and, Bool.true_and]

theorem build_append64_numberBits {count : Nat} (hpos : 0 < count) (hle : count ≤ 64)
    (number : Nat) :
    build empty (append64 (BitVec.ofNat 64 number) count .right) =
      .ok (ofBits (numberBits count number) .notFixed) := by
  have hrun := appendUInt_bits (l := []) (p := .notFixed) hpos
    (show count ≤ UIntWidth.bits .w64 from hle) (by decide)
    (by rw [List.length_nil]; unfold uint32Size; omega) (BitVec.ofNat 64 number) .right
  rw [List.nil_append] at hrun
  change build empty (appendUInt .w64 (BitVec.ofNat 64 number) count .right) = _
  rw [build, empty_eq_ofBits, hrun]
  exact congrArg (fun l => Except.ok (ofBits l .notFixed)) (integerBits_eq_numberBits hle number)

theorem build_append64_throws (count : Nat) (hrejects : count = 0 ∨ 64 < count)
    (value : BitVec 64) : Throws (build empty (append64 value count .right)) := by
  obtain ⟨fault, hfault, hrun⟩ : Rejects (append64 value count .right) empty :=
    @appendUInt_rejects .w64 count empty (.inr hrejects) value .right
  exact ⟨fault, hfault, by rw [build, hrun]⟩

/-- Where the value of a decimal text starts to be read: behind neither blanks nor a tilde. -/
def StartsPlainly (text : Text) : Prop := ∃ c rest, text = c :: rest ∧ c ≠ ' ' ∧ c ≠ '\t' ∧ c ≠ '~'

/-- What the loop of `CreateFromDecString` makes of the text behind the leading zeros. -/
def readDecText (text : Text) : Except Fault DecReader :=
  let digits := text.dropWhile fun c => decide (c = '0')
  readDecChars digits digits ⟨32, text.head? = some '0', false, false, 0⟩

section Result

variable {text : Text} (hstart : StartsPlainly text) (p : SizeProperty)
include hstart

theorem createFromDecString_of_fault (hread : Throws (readDecText text)) :
    Throws (createFromDecString text p) := by
  obtain ⟨c, rest, rfl, hspace, htab, htilde⟩ := hstart
  obtain ⟨fault, hfault, hread⟩ := hread
  have htrim : trimLeft (c :: rest) = c :: rest :=
    List.dropWhile_cons_of_neg (by simp [hspace, htab])
  have hplain : ¬List.head? (c :: rest) = some '~' := by simpa using htilde
  refine ⟨fault, hfault, ?_⟩
  simp only [readDecText] at hread
  simp only [createFromDecString, htrim, if_neg (List.cons_ne_nil _ _), if_neg hplain, hread]

/-- The number of bits that is asked for a value, and the one that arrives in `Append`. -/
theorem createFromDecString_of_reader {reader : DecReader} (hread : readDecText text = .ok reader)
    (hparsed : reader.parsedDigits = true) {count : Nat}
    (hcount : (if ¬reader.hasSize ∧ reader.value > uint32Size - 1 then 64
      else reader.bitsCount) % 256 = count) :
    if 0 < count ∧ count ≤ 64 then
      createFromDecString text p =
        .ok (ofBits (numberBits count reader.value) p)
    else Throws (createFromDecString text p) := by
  obtain ⟨c, rest, rfl, hspace, htab, htilde⟩ := hstart
  have htrim : trimLeft (c :: rest) = c :: rest :=
    List.dropWhile_cons_of_neg (by simp [hspace, htab])
  have hplain : ¬List.head? (c :: rest) = some '~' := by simpa using htilde
  have hdigits : ¬¬reader.parsedDigits = true := not_not.mpr hparsed
  simp only [readDecText] at hread
  by_cases hfits : 0 < count ∧ count ≤ 64
  · have hbuild := build_append64_numberBits hfits.1 hfits.2 reader.value
    rw [if_pos hfits]
    simp only [createFromDecString, htrim, if_neg (List.cons_ne_nil _ _), if_neg hplain, hread,
      if_neg hdigits, hcount, hbuild]
    rfl
  · obtain ⟨fault, hfault, hbuild⟩ :=
      build_append64_throws count (by omega) (BitVec.ofNat 64 reader.value)
    rw [if_neg hfits]
    refine ⟨fault, hfault, ?_⟩
    simp only [createFromDecString, htrim, if_neg (List.cons_ne_nil _ _), if_neg hplain, hread,
      if_neg hdigits, hcount, hbuild]

end Result

def defaultBits (value : Nat) : Nat := if value < uint32Size then 32 else 64

theorem defaultBits_count (value : Nat) :
    (if ¬false = true ∧ value > uint32Size - 1 then 64 else 32) % 256 = defaultBits value ∧
      0 < defaultBits value ∧ defaultBits value ≤ 64 := by
  have hsize : uint32Size = 4294967296 := rfl
  rw [defaultBits]
  by_cases hsmall : value < uint32Size
  · rw [if_pos hsmall, if_neg (by omega)]
    decide
  · rw [if_neg hsmall, if_pos ⟨Bool.false_ne_true, by omega⟩]
    decide

theorem digit_plain {c : Char} (hdigit : (decDigitValue c).isSome) :
    c ≠ ' ' ∧ c ≠ '\t' ∧ c ≠ '~' ∧ endsChunk c = false := by
  refine ⟨?_, ?_, ?_, ?_⟩
  · rintro rfl
    exact absurd hdigit (by decide)
  · rintro rfl
    exact absurd hdigit (by decide)
  · rintro rfl
    exact absurd hdigit (by decide)
  · rw [← Bool.not_eq_true]
    intro hends
    have hmem := of_decide_eq_true hends
    simp only [List.mem_cons, List.not_mem_nil, or_false] at hmem
    rcases hmem with rfl | rfl | rfl | rfl <;> exact absurd hdigit (by decide)

section Digits

variable {digits : Text} (hdigits : ∀ c ∈ digits, (decDigitValue c).isSome)

include hdigits

theorem startsPlainly_digits (hne : digits ≠ []) (rest : Text) : StartsPlainly (digits ++ rest) := by
  obtain ⟨c, more, rfl⟩ := List.exists_cons_of_ne_nil hne
  obtain ⟨hspace, htab, htilde, -⟩ := digit_plain (hdigits c List.mem_cons_self)
  exact ⟨c, more ++ rest, rfl, hspace, htab, htilde⟩

theorem readDecText_digits (hne : digits ≠ []) :
    readDecText digits =
      if numberOf digits < uint64Size then .ok ⟨32, true, false, false, numberOf digits⟩
      else .error (.outOfRange "Parsed value is out of uint64_t range") := by
  have hrest : ∀ c ∈ digits.dropWhile (fun c => decide (c = '0')), (decDigitValue c).isSome :=
    fun c hc => hdigits c (List.dropWhile_subset _ hc)
  have hparsed : (decide (digits.head? = some '0') ||
      !(digits.dropWhile fun c => decide (c = '0')).isEmpty) = true := by
    obtain ⟨c, more, rfl⟩ := List.exists_cons_of_ne_nil hne
    by_cases hzero : c = '0'
    · subst hzero
      rfl
    · rw [List.dropWhile_cons_of_neg (by simpa using hzero)]
      simp
  have hread := readDecChars_digits hrest ⟨32, digits.head? = some '0', false, false, 0⟩
    rfl (show 0 < uint64Size by decide) (digits.dropWhile fun c => decide (c = '0')) []
  have hnumber : continued 0 (digits.dropWhile fun c => decide (c = '0')) = numberOf digits :=
    numberOf_dropWhile digits
  rw [List.append_nil] at hread
  simp only [hnumber, hparsed] at hread
  exact hread

theorem createFromDecString_digits (hne : digits ≠ []) (hfits : numberOf digits < uint64Size)
    (p : SizeProperty) :
    createFromDecString digits p =
      .ok (ofBits (numberBits (defaultBits (numberOf digits)) (numberOf digits)) p) := by
  have hstart := startsPlainly_digits hdigits hne []
  have hread := readDecText_digits hdigits hne
  obtain ⟨hcount, hbits⟩ := defaultBits_count (numberOf digits)
  rw [List.append_nil] at hstart
  rw [if_pos hfits] at hread
  have hresult := createFromDecString_of_reader hstart p hread rfl hcount
  rwa [if_pos hbits] at hresult

theorem createFromDecString_tooLarge (hne : digits ≠ []) (hlarge : uint64Size ≤ numberOf digits)
    (p : SizeProperty) : Throws (createFromDecString digits p) := by
  have hstart := startsPlainly_digits hdigits hne []
  have hread := readDecText_digits hdigits hne
  rw [List.append_nil] at hstart
  rw [if_neg (by omega)] at hread
  exact createFromDecString_of_fault hstart p ⟨_, Fault.noConfusion, hread⟩

end Digits

/-! ### Sizes -/

theorem startsPlainly_quote (rest : Text) : StartsPlainly ('\'' :: 'd' :: rest) :=
  ⟨'\'', 'd' :: rest, rfl, by decide, by decide, by decide⟩

theorem startsPlainly_decimal {size : Nat} (hpos : 0 < size) (rest : Text) :
    StartsPlainly (decimal size ++ rest) := by
  obtain ⟨c, more, hdecimal, -⟩ := decimal_head hpos
  exact startsPlainly_digits (decimal_digits size) (hdecimal ▸ List.cons_ne_nil _ _) rest

theorem readDecText_quoted (rest : Text) :
    readDecText ('\'' :: 'd' :: rest) =
      readDecChars ('\'' :: 'd' :: rest) rest ⟨32, true, false, false, 0⟩ := rfl

theorem readDecText_sized {size : Nat} (hpos : 0 < size) (rest : Text) :
    readDecText (decimal size ++ '\'' :: 'd' :: rest) =
      if size < uint64Size then
        if size % uint32Size = 0 then .error (.invalidArgument "Bits count must be at least one!")
        else readDecChars (decimal size ++ '\'' :: 'd' :: rest) rest
          ⟨size % uint32Size, true, true, false, 0⟩
      else .error (.outOfRange "Parsed value is out of uint64_t range") := by
  obtain ⟨c, more, hdecimal, hlow, hhigh⟩ := decimal_head hpos
  have hzero : c ≠ '0' := by
    rintro rfl
    exact absurd hlow (by decide)
  generalize htext : decimal size ++ '\'' :: 'd' :: rest = text
  have hhead : text = c :: (more ++ '\'' :: 'd' :: rest) := by
    rw [← htext, hdecimal, List.cons_append]
  have hskip : text.dropWhile (fun c => decide (c = '0')) = text := by
    rw [hhead]
    exact List.dropWhile_cons_of_neg (by simpa using hzero)
  have hnone : decide (text.head? = some '0') = false := by
    rw [hhead]
    simpa using hzero
  have hread := readDecChars_digits (decimal_digits size) ⟨32, false, false, false, 0⟩
    rfl (show 0 < uint64Size by decide) text ('\'' :: 'd' :: rest)
  have hnumber : continued 0 (decimal size) = size := numberOf_decimal size
  have hparsed : (false || !(decimal size).isEmpty) = true := by
    rw [hdecimal]
    rfl
  simp only [hnumber, hparsed, htext] at hread
  rw [readDecChars_size] at hread
  simp only [readDecText, hskip, hnone, hread]

/-- The number of bits that a decimal text asks for in vain: it does not fit in 64 bits, or what is left of it in 8 bits is no width of a value of 64 bits. -/
def SizeRefused (size : Nat) : Prop := uint64Size ≤ size ∨ size % 256 = 0 ∨ 64 < size % 256

section Sized

variable {size : Nat} (hpos : 0 < size) (p : SizeProperty)
include hpos

theorem createFromDecString_sizedFault {rest : Text}
    (hread : ∀ text, Throws (readDecChars text rest ⟨size % uint32Size, true, true, false, 0⟩)) :
    Throws (createFromDecString (decimal size ++ '\'' :: 'd' :: rest) p) := by
  have hsized := readDecText_sized hpos rest
  refine createFromDecString_of_fault (startsPlainly_decimal hpos _) p ?_
  rw [hsized]
  by_cases hfits : size < uint64Size
  · rw [if_pos hfits]
    by_cases hnone : size % uint32Size = 0
    · rw [if_pos hnone]
      exact ⟨_, Fault.noConfusion, rfl⟩
    · rw [if_neg hnone]
      exact hread _
  · rw [if_neg hfits]
    exact ⟨_, Fault.noConfusion, rfl⟩

theorem createFromDecString_sizeRefused (hrefused : SizeRefused size) {rest : Text} {value : Nat}
    (hread : ∀ text, readDecChars text rest ⟨size % uint32Size, true, true, false, 0⟩ =
      .ok ⟨size % uint32Size, true, true, false, value⟩) :
    Throws (createFromDecString (decimal size ++ '\'' :: 'd' :: rest) p) := by
  have hstart := startsPlainly_decimal hpos ('\'' :: 'd' :: rest)
  have hsized := readDecText_sized hpos rest
  by_cases hfits : size < uint64Size
  · rw [if_pos hfits] at hsized
    by_cases hnone : size % uint32Size = 0
    · rw [if_pos hnone] at hsized
      exact createFromDecString_of_fault hstart p ⟨_, Fault.noConfusion, hsized⟩
    · rw [if_neg hnone] at hsized
      have hcount : (if ¬true = true ∧ value > uint32Size - 1 then 64
          else size % uint32Size) % 256 = size % 256 := by
        have hbytes : uint32Size = 256 * 16777216 := rfl
        rw [if_neg (by simp), hbytes, Nat.mod_mul_right_mod]
      have hresult := createFromDecString_of_reader hstart p (hsized.trans (hread _)) rfl hcount
      have hno : ¬(0 < size % 256 ∧ size % 256 ≤ 64) := by
        unfold SizeRefused at hrefused
        omega
      rwa [if_neg hno] at hresult
  · rw [if_neg hfits] at hsized
    exact createFromDecString_of_fault hstart p ⟨_, Fault.noConfusion, hsized⟩

theorem createFromDecString_sizeKept (hkept : ¬SizeRefused size) {rest : Text} {value : Nat}
    (hread : ∀ text, readDecChars text rest ⟨size % uint32Size, true, true, false, 0⟩ =
      .ok ⟨size % uint32Size, true, true, false, value⟩) :
    createFromDecString (decimal size ++ '\'' :: 'd' :: rest) p =
      .ok (ofBits (numberBits (size % 256) value) p) := by
  have hstart := startsPlainly_decimal hpos ('\'' :: 'd' :: rest)
  have hsized := readDecText_sized hpos rest
  have hbytes : uint32Size = 256 * 16777216 := rfl
  unfold SizeRefused at hkept
  have hsome : ¬size % uint32Size = 0 := by
    rw [hbytes]
    omega
  rw [if_pos (by omega), if_neg hsome] at hsized
  have hcount : (if ¬true = true ∧ value > uint32Size - 1 then 64
      else size % uint32Size) % 256 = size % 256 := by
    rw [if_neg (by simp), hbytes, Nat.mod_mul_right_mod]
  have hresult := createFromDecString_of_reader hstart p (hsized.trans (hread _)) rfl hcount
  rwa [if_pos (by omega)] at hresult

end Sized

/-! ### The value -/

theorem readDecChars_value {digits : Text} (hdigits : ∀ c ∈ digits, (decDigitValue c).isSome)
    (bitsCount : Nat) (hasSize : Bool) (text : Text) :
    readDecChars text digits ⟨bitsCount, true, hasSize, false, 0⟩ =
      if numberOf digits < uint64Size then .ok ⟨bitsCount, true, hasSize, false, numberOf digits⟩
      else .error (.outOfRange "Parsed value is out of uint64_t range") := by
  have hread := readDecChars_digits hdigits ⟨bitsCount, true, hasSize, false, 0⟩ rfl
    (show 0 < uint64Size by decide) text []
  rw [List.append_nil] at hread
  exact hread

theorem createFromDecString_quoted {rest : Text} {value : Nat} (p : SizeProperty)
    (hread : ∀ text, readDecChars text rest ⟨32, true, false, false, 0⟩ =
      .ok ⟨32, true, false, false, value⟩) :
    createFromDecString ('\'' :: 'd' :: rest) p =
      .ok (ofBits (numberBits (defaultBits value) value) p) := by
  obtain ⟨hcount, hbits⟩ := defaultBits_count value
  have hresult := createFromDecString_of_reader (startsPlainly_quote rest) p
    ((readDecText_quoted rest).trans (hread _)) rfl hcount
  rwa [if_pos hbits] at hresult

theorem createFromDecString_quotedFault {rest : Text} (p : SizeProperty)
    (hread : ∀ text, Throws (readDecChars text rest ⟨32, true, false, false, 0⟩)) :
    Throws (createFromDecString ('\'' :: 'd' :: rest) p) :=
  createFromDecString_of_fault (startsPlainly_quote rest) p (hread _)

theorem createFromDecString_noDigit {tail : Text} (htail : ∀ c ∈ tail, decDigitValue c = none)
    (hquote : '\'' ∉ tail) (hblank : trimLeft tail ≠ []) (p : SizeProperty) :
    Throws (createFromDecString tail p) := by
  obtain ⟨digits, hdigits⟩ : ∃ digits, digits =
      (if (trimLeft tail).head? = some '~' then (trimLeft tail).tail else trimLeft tail) := ⟨_, rfl⟩
  have hmem : ∀ c ∈ digits, c ∈ tail := by
    intro c hc
    rw [hdigits] at hc
    split at hc
    · exact List.dropWhile_subset _ (List.mem_of_mem_tail hc)
    · exact List.dropWhile_subset _ hc
  have hzero : ∀ c ∈ digits, ¬c = '0' := by
    rintro c hc rfl
    exact absurd (htail '0' (hmem '0' hc)) (by decide)
  have hskip : digits.dropWhile (fun c => decide (c = '0')) = digits := by
    cases hcase : digits with
    | nil => rfl
    | cons c rest =>
      have hc := hzero c (by rw [hcase]; exact List.mem_cons_self)
      exact List.dropWhile_cons_of_neg (by simpa using hc)
  have hhead : decide (digits.head? = some '0') = false := by
    cases hcase : digits with
    | nil => rfl
    | cons c rest =>
      have hc := hzero c (by rw [hcase]; exact List.mem_cons_self)
      simpa using hc
  have hread := readDecChars_tail (fun c hc => htail c (hmem c hc))
    ⟨32, false, false, false, 0⟩ rfl (.inr (.inr fun h => hquote (hmem _ h))) digits
  simp only [createFromDecString, if_neg hblank]
  rw [← hdigits, hskip, hhead]
  rcases hread with ⟨-, hok⟩ | ⟨-, fault, hfault, hthrows⟩
  · rw [hok]
    exact ⟨_, Fault.noConfusion, rfl⟩
  · rw [hthrows]
    exact ⟨fault, hfault, rfl⟩

end BinaryVector

end Mast
