import Mast.BinaryVector.AdjustSize
import Mast.BinaryVector.DecimalLaws

/-!
# Texts of based numbers

The lexer keeps a based number as it is written: a quote, the letter of the base, blanks, and digits with underscores between them. `CreateFromString` gives the bits of its digits; a decimal number gets 32 bits, or 64 if it needs them.
-/

namespace Mast

open BitPacking Interleaving

namespace BinaryVector

inductive Base
  | binary
  | decimal
  | hexadecimal
  deriving DecidableEq, Repr

namespace Base

def letter : Base → Bool → Char
  | .binary, false => 'b'
  | .binary, true => 'B'
  | .decimal, false => 'd'
  | .decimal, true => 'D'
  | .hexadecimal, false => 'h'
  | .hexadecimal, true => 'H'

def radix : Base → Nat
  | .binary => 2
  | .decimal => 10
  | .hexadecimal => 16

def digitValue : Base → Char → Option Nat
  | .binary, c => if c = '0' then some 0 else if c = '1' then some 1 else none
  | .decimal, c => decDigitValue c
  | .hexadecimal, c => (hexDigitValue c).map BitVec.toNat

def numberBase : Base → NumberBase
  | .binary => .binary
  | .decimal => .decimal
  | .hexadecimal => .hexadecimal

/-- The number that digits make behind those of another number. -/
def continued (base : Base) (number : Nat) (digits : Text) : Nat :=
  digits.foldl (fun number c => base.radix * number + (base.digitValue c).getD 0) number

end Base

structure BasedText where
  base : Base
  uppercase : Bool
  blanks : Text
  first : Char
  rest : Text
  blanks_valid : ∀ c ∈ blanks, c = ' ' ∨ c = '\t'
  first_valid : (base.digitValue first).isSome
  rest_valid : ∀ c ∈ rest, c = '_' ∨ (base.digitValue c).isSome

namespace BasedText

variable (t : BasedText)

def body : Text := t.first :: t.rest

def text : Text := '\'' :: t.base.letter t.uppercase :: (t.blanks ++ t.body)

def digits : Text := t.body.filter (· ≠ '_')

/-- The number that is written. -/
def value : Nat := t.base.continued 0 t.digits

def bitsCount : Nat :=
  match t.base with
  | .binary => t.digits.length
  | .decimal => defaultBits t.value
  | .hexadecimal => 4 * t.digits.length

/-- Decimal numbers of more than 64 bits are refused. -/
def Readable : Prop := t.base = .decimal → t.value < uint64Size

instance : Decidable t.Readable := inferInstanceAs (Decidable (_ → _))

end BasedText

/-! ### Bits of digits -/

/-- A digit behind a number adds its bits. -/
theorem numberBits_append {width count number digit : Nat} (hdigit : digit < 2 ^ count) :
    numberBits (width + count) (2 ^ count * number + digit) =
      numberBits width number ++ numberBits count digit := by
  apply List.ext_getElem
  · rw [List.length_append, numberBits_length, numberBits_length, numberBits_length]
  · intro i hleft hright
    rw [numberBits_length] at hleft
    have hbit : (numberBits (width + count) (2 ^ count * number + digit))[i] =
        (2 ^ count * number + digit).testBit (width + count - 1 - i) := by
      simp only [numberBits, List.getElem_map, List.getElem_range]
    rw [hbit, Nat.testBit_two_pow_mul_add number hdigit]
    by_cases hfront : i < width
    · have hindex : width + count - 1 - i - count = width - 1 - i := by omega
      rw [if_neg (by omega), hindex, List.getElem_append_left (by rwa [numberBits_length])]
      simp only [numberBits, List.getElem_map, List.getElem_range]
    · have hindex : count - 1 - (i - width) = width + count - 1 - i := by omega
      rw [if_pos (by omega), List.getElem_append_right (by rw [numberBits_length]; omega)]
      simp only [numberBits, List.getElem_map, List.getElem_range, List.length_map,
        List.length_range, hindex]

/-- Digits of `count` bits each, behind a number of `width` bits. -/
theorem numberBits_digits {base : Base} {count : Nat} (hradix : base.radix = 2 ^ count)
    {digits : Text} (hdigits : ∀ c ∈ digits, (base.digitValue c).getD 0 < 2 ^ count)
    {width number : Nat} (hnumber : number < 2 ^ width) :
    base.continued number digits < 2 ^ (width + count * digits.length) ∧
      numberBits (width + count * digits.length) (base.continued number digits) =
        numberBits width number ++
          digits.flatMap fun c => numberBits count ((base.digitValue c).getD 0) := by
  induction digits generalizing width number with
  | nil =>
    rw [List.length_nil, Nat.mul_zero, Nat.add_zero, List.flatMap_nil, List.append_nil]
    exact ⟨hnumber, rfl⟩
  | cons c digits ih =>
    have hdigit := hdigits c List.mem_cons_self
    have hnext : base.radix * number + (base.digitValue c).getD 0 < 2 ^ (width + count) := by
      rw [hradix, Nat.add_comm width, Nat.pow_add]
      calc 2 ^ count * number + (base.digitValue c).getD 0
          < 2 ^ count * number + 2 ^ count := Nat.add_lt_add_left hdigit _
        _ = 2 ^ count * (number + 1) := rfl
        _ ≤ 2 ^ count * 2 ^ width := Nat.mul_le_mul_left _ hnumber
    obtain ⟨hless, hbits⟩ := ih (fun c hc => hdigits c (List.mem_cons_of_mem _ hc)) hnext
    have hlength : width + count * (c :: digits).length =
        width + count + count * digits.length := by
      rw [List.length_cons, Nat.mul_succ]
      omega
    rw [hlength, Base.continued, List.foldl_cons]
    refine ⟨hless, hbits.trans ?_⟩
    rw [hradix, numberBits_append hdigit, List.flatMap_cons, List.append_assoc]

theorem byteBits_eq_numberBits (byte : Byte) : byteBits byte = numberBits 8 byte.toNat := by
  apply List.map_congr_left
  intro i hi
  have hin := List.mem_range.mp hi
  rw [BitVec.getMsbD_eq_getLsbD, decide_eq_true hin, Bool.true_and, BitVec.getLsbD]

theorem hexDigitValue_lt {c : Char} {value : Byte} (hvalue : hexDigitValue c = some value) :
    value.toNat < 16 := by
  unfold hexDigitValue at hvalue
  split at hvalue <;> first
    | (injection hvalue with hvalue; subst hvalue; decide)
    | simp at hvalue

namespace Base

theorem digitValue_underscore (base : Base) : base.digitValue '_' = none := by
  cases base <;> rfl

theorem binary_digit {c : Char} (hdigit : (binary.digitValue c).isSome) : c = '0' ∨ c = '1' := by
  by_contra hneither
  rw [not_or] at hneither
  simp [digitValue, hneither.1, hneither.2] at hdigit

theorem hexadecimal_digit {c : Char} (hdigit : (hexadecimal.digitValue c).isSome) :
    (hexDigitValue c).isSome := by
  rwa [digitValue, Option.isSome_map] at hdigit

theorem digitValue_lt {base : Base} {c : Char} {digit : Nat}
    (hdigit : base.digitValue c = some digit) : digit < base.radix := by
  cases base with
  | binary =>
    rcases binary_digit (Option.isSome_of_eq_some hdigit) with rfl | rfl
    · cases hdigit
      decide
    · cases hdigit
      decide
  | decimal => exact decDigitValue_lt hdigit
  | hexadecimal =>
    obtain ⟨value, hvalue, rfl⟩ := Option.map_eq_some_iff.mp hdigit
    exact hexDigitValue_lt hvalue

/-- A digit of any base ends no chunk and is no blank. -/
theorem digit_plain {base : Base} {c : Char} (hdigit : (base.digitValue c).isSome) :
    c ≠ ' ' ∧ c ≠ '\t' ∧ c ≠ '~' ∧ endsChunk c = false := by
  cases base with
  | binary => rcases binary_digit hdigit with rfl | rfl <;> decide
  | decimal => exact BinaryVector.digit_plain hdigit
  | hexadecimal =>
    have hhex := hexadecimal_digit hdigit
    refine ⟨?_, ?_, ?_, hexDigit_not_endsChunk hhex⟩
    · rintro rfl
      cases hhex
    · rintro rfl
      cases hhex
    · rintro rfl
      cases hhex

theorem continued_decimal (number : Nat) (digits : Text) :
    decimal.continued number digits = BinaryVector.continued number digits := rfl

end Base

namespace BasedText

variable (t : BasedText)

theorem digits_valid : ∀ c ∈ t.digits, (t.base.digitValue c).isSome := by
  intro c hc
  obtain ⟨hmem, hplain⟩ := List.mem_filter.mp hc
  rcases List.mem_cons.mp hmem with rfl | hrest
  · exact t.first_valid
  · exact (t.rest_valid c hrest).resolve_left (by simpa using hplain)

theorem first_ne_underscore : t.first ≠ '_' := by
  intro heq
  have hvalid := t.first_valid
  rw [heq, Base.digitValue_underscore] at hvalid
  cases hvalid

theorem body_interleaved : Interleaved (· = '_') t.digits t.body := by
  unfold digits
  induction t.body with
  | nil => exact .nil
  | cons c body ih =>
    by_cases hfiller : c = '_'
    · rw [List.filter_cons_of_neg (by simp [hfiller])]
      exact .filler hfiller ih
    · rw [List.filter_cons_of_pos (by simpa using hfiller)]
      exact .item c ih

theorem blanks_body_interleaved : Interleaved Ignored t.digits (t.blanks ++ t.body) := by
  have hblanks : Interleaved Ignored [] t.blanks := Interleaved.of_filler fun c hc => by
    rcases t.blanks_valid c hc with rfl | rfl <;> rfl
  have hbody : Interleaved Ignored t.digits t.body := t.body_interleaved.mono fun c hc => by
    subst hc
    rfl
  exact hblanks.append hbody

theorem mem_body {c : Char} (hc : c ∈ t.body) : c = '_' ∨ (t.base.digitValue c).isSome := by
  rcases List.mem_cons.mp hc with rfl | hrest
  · exact .inr t.first_valid
  · exact t.rest_valid c hrest

theorem getNextChunk_eq : getNextChunk true t.text =
    .ok (⟨t.base.numberBase, false, 0⟩, t.blanks ++ t.body, []) := by
  have htrim : trimLeft t.text = t.text := List.dropWhile_cons_of_neg (by decide)
  have hbody : ∀ c ∈ t.blanks ++ t.body, endsChunk c = false := by
    intro c hc
    rcases List.mem_append.mp hc with hblank | hmem
    · rcases t.blanks_valid c hblank with rfl | rfl <;> rfl
    · rcases t.mem_body hmem with rfl | hdigit
      · rfl
      · exact (Base.digit_plain hdigit).2.2.2
  have hextract : extractEncodingInfo true t.text =
      .ok (⟨t.base.numberBase, false, 0⟩, t.blanks ++ t.body ++ []) := by
    rw [List.append_nil, text]
    cases t.base <;> cases t.uppercase <;> rfl
  have hbase : t.base.numberBase ≠ .undefined := by
    cases t.base <;> exact NumberBase.noConfusion
  rw [← htrim] at hextract
  exact getNextChunk_of_encoding hextract hbase hbody fun c hc => by cases hc

end BasedText

/-! ### Decimal digits -/

theorem readDecChars_separated {body : Text}
    (hbody : ∀ c ∈ body, c = '_' ∨ (decDigitValue c).isSome) (reader : DecReader)
    (hquote : reader.nextMustBeD = false) (hvalue : reader.value < uint64Size) (text : Text) :
    readDecChars text body reader =
      if continued reader.value (body.filter (· ≠ '_')) < uint64Size then
        .ok { reader with
          parsedDigits := reader.parsedDigits || !(body.filter (· ≠ '_')).isEmpty
          value := continued reader.value (body.filter (· ≠ '_')) }
      else .error (.outOfRange "Parsed value is out of uint64_t range") := by
  induction body generalizing reader with
  | nil =>
    have hsame : { reader with
        parsedDigits := reader.parsedDigits || !([] : Text).isEmpty
        value := continued reader.value [] } = reader := by
      simp [continued]
    rw [List.filter_nil, hsame]
    exact (if_pos hvalue).symm
  | cons c body ih =>
    have hrest := fun c hc => hbody c (List.mem_cons_of_mem _ hc)
    by_cases hfiller : c = '_'
    · subst hfiller
      have hread : readDecChar text '_' reader = .ok reader := by
        have hany : ¬(reader.nextMustBeD ∧ '_' ≠ 'd' ∧ '_' ≠ 'D') := by simp [hquote]
        rw [readDecChar]
        simp only [if_neg hany]
        rfl
      rw [readDecChars, hread, List.filter_cons_of_neg (by simp)]
      exact ih hrest reader hquote hvalue
    · obtain ⟨digit, hdigit⟩ := Option.isSome_iff_exists.mp
        ((hbody c List.mem_cons_self).resolve_left hfiller)
      have hle := le_continued (10 * reader.value + digit) (body.filter (· ≠ '_'))
      rw [readDecChars, readDecChar_digit hdigit hquote,
        DecReader.appendDigit_eq _ (decDigitValue_lt hdigit),
        List.filter_cons_of_pos (by simpa using hfiller), continued_cons hdigit]
      by_cases hfits : 10 * reader.value + digit < uint64Size
      · have hread := ih hrest { reader with
          parsedDigits := true, value := 10 * reader.value + digit } hquote hfits
        rw [if_pos hfits]
        simp only [hread]
        simp
      · rw [if_neg hfits, if_neg (by omega)]

namespace BasedText

variable (t : BasedText)

theorem numberOf_body (body : Text) :
    numberOf ((body.dropWhile fun c => decide (c = '0')).filter (· ≠ '_')) =
      numberOf (body.filter (· ≠ '_')) := by
  induction body with
  | nil => rfl
  | cons c body ih =>
    by_cases hzero : c = '0'
    · subst hzero
      rw [List.dropWhile_cons_of_pos (by decide), ih, List.filter_cons_of_pos (by decide)]
      rfl
    · rw [List.dropWhile_cons_of_neg (by simpa using hzero)]

theorem readDecText_body (hbase : t.base = .decimal) :
    readDecText t.body =
      if t.value < uint64Size then .ok ⟨32, true, false, false, t.value⟩
      else .error (.outOfRange "Parsed value is out of uint64_t range") := by
  have hbody : ∀ c ∈ t.body.dropWhile fun c => decide (c = '0'),
      c = '_' ∨ (decDigitValue c).isSome := by
    intro c hc
    have hmem := t.mem_body (List.dropWhile_subset _ hc)
    rwa [hbase] at hmem
  have hvalue : continued 0 ((t.body.dropWhile fun c => decide (c = '0')).filter (· ≠ '_')) =
      t.value := by
    rw [value, hbase, Base.continued_decimal]
    exact numberOf_body t.body
  have hparsed : (decide (t.body.head? = some '0') ||
      !((t.body.dropWhile fun c => decide (c = '0')).filter (· ≠ '_')).isEmpty) = true := by
    by_cases hzero : t.first = '0'
    · simp [body, hzero]
    · rw [body, List.dropWhile_cons_of_neg (by simpa using hzero),
        List.filter_cons_of_pos (by simpa using t.first_ne_underscore)]
      simp
  have hread := readDecChars_separated hbody
    ⟨32, t.body.head? = some '0', false, false, 0⟩ rfl (show 0 < uint64Size by decide)
    (t.body.dropWhile fun c => decide (c = '0'))
  simp only [hvalue, hparsed] at hread
  exact hread

theorem body_startsPlainly : StartsPlainly t.body := by
  obtain ⟨hspace, htab, htilde, -⟩ := Base.digit_plain t.first_valid
  exact ⟨t.first, t.rest, rfl, hspace, htab, htilde⟩

theorem createFromDecString_blanks (p : SizeProperty) :
    createFromDecString (t.blanks ++ t.body) p = createFromDecString t.body p := by
  obtain ⟨c, rest, hbody, hspace, htab, -⟩ := t.body_startsPlainly
  have hplain : trimLeft t.body = t.body := by
    rw [hbody]
    exact List.dropWhile_cons_of_neg (by simp [hspace, htab])
  have htrim : trimLeft (t.blanks ++ t.body) = t.body := by
    rw [trimLeft, List.dropWhile_append_of_pos, ← trimLeft, hplain]
    intro c hc
    simpa using t.blanks_valid c hc
  simp only [createFromDecString, htrim, hplain]

theorem body_ne_nil : t.blanks ++ t.body ≠ [] := by
  simp [body]

theorem value_bits {count : Nat} (hradix : t.base.radix = 2 ^ count) :
    t.value < 2 ^ (count * t.digits.length) ∧
      numberBits (count * t.digits.length) t.value =
        t.digits.flatMap fun c => numberBits count ((t.base.digitValue c).getD 0) := by
  have hsmall : ∀ c ∈ t.digits, (t.base.digitValue c).getD 0 < 2 ^ count := by
    intro c hc
    obtain ⟨digit, hdigit⟩ := Option.isSome_iff_exists.mp (t.digits_valid c hc)
    rw [hdigit, ← hradix]
    exact Base.digitValue_lt hdigit
  have hbits := numberBits_digits hradix hsmall (Nat.two_pow_pos 0)
  rw [Nat.zero_add] at hbits
  exact hbits

theorem value_lt (hreadable : t.Readable) : t.value < 2 ^ t.bitsCount := by
  unfold bitsCount
  cases hbase : t.base with
  | binary =>
    have hbits := t.value_bits (show t.base.radix = 2 ^ 1 by rw [hbase]; rfl)
    rw [Nat.one_mul] at hbits
    exact hbits.1
  | decimal =>
    have hfits := hreadable hbase
    exact defaultBits_fits hfits
  | hexadecimal => exact (t.value_bits (show t.base.radix = 2 ^ 4 by rw [hbase]; rfl)).1

theorem chunkVector_binary (hbase : t.base = .binary) (hbound : t.bitsCount < uint32Size)
    (dontCare : DontCare) :
    createFromBinaryString (t.blanks ++ t.body) .notFixed dontCare =
      .ok (ofBits (numberBits t.bitsCount t.value) .notFixed) := by
  have hcount : t.bitsCount = t.digits.length := by rw [bitsCount, hbase]
  have hdigits : ∀ c ∈ t.digits, c = '0' ∨ c = '1' := by
    intro c hc
    have hdigit := t.digits_valid c hc
    rw [hbase] at hdigit
    exact Base.binary_digit hdigit
  have hbits : t.digits.map (· == '1') = numberBits t.digits.length t.value := by
    have hall := (t.value_bits (show t.base.radix = 2 ^ 1 by rw [hbase]; rfl)).2
    rw [Nat.one_mul] at hall
    rw [hall, List.map_eq_flatMap]
    apply List.flatMap_congr
    intro c hc
    rw [hbase]
    rcases hdigits c hc with rfl | rfl <;> rfl
  have hread := createFromBinaryString_interleaved (l := t.digits.map (· == '1'))
    (by rw [binaryDigits_of_digits hdigits]; exact t.blanks_body_interleaved) (.inl rfl)
    .notFixed dontCare
  rw [hread, hcount, ← hbits, List.length_map, Nat.mod_eq_of_lt (by omega), ofBits,
    List.length_map]

theorem chunkVector_hexadecimal (hbase : t.base = .hexadecimal)
    (hbound : t.bitsCount < uint32Size) (dontCare : DontCare) :
    createFromHexString (t.blanks ++ t.body) .notFixed dontCare =
      .ok (ofBits (numberBits t.bitsCount t.value) .notFixed) := by
  have hcount : t.bitsCount = 4 * t.digits.length := by rw [bitsCount, hbase]
  have hhex : ∀ c ∈ t.digits, (hexDigitValue c).isSome := by
    intro c hc
    have hdigit := t.digits_valid c hc
    rw [hbase] at hdigit
    exact Base.hexadecimal_digit hdigit
  have hbits : (t.digits.flatMap fun c => (byteBits ((hexDigitValue c).getD 0)).drop 4) =
      numberBits (4 * t.digits.length) t.value := by
    rw [(t.value_bits (show t.base.radix = 2 ^ 4 by rw [hbase]; rfl)).2]
    apply List.flatMap_congr
    intro c hc
    obtain ⟨value, hvalue⟩ := Option.isSome_iff_exists.mp (hhex c hc)
    rw [hbase, Base.digitValue, hvalue, byteBits_eq_numberBits]
    exact numberBits_drop (show 4 ≤ 8 by decide) value.toNat
  have hread := createFromHexString_digits t.blanks_body_interleaved hhex .notFixed dontCare
  rw [hread, hexTextBits_flatMap dontCare hhex, hbits, numberBits_length, hcount,
    Nat.mod_eq_of_lt (by omega), ofBits, numberBits_length]

theorem chunkVector_decimal (hbase : t.base = .decimal) (hfits : t.value < uint64Size) :
    createFromDecString (t.blanks ++ t.body) .notFixed =
      .ok (ofBits (numberBits t.bitsCount t.value) .notFixed) := by
  have hread := t.readDecText_body hbase
  rw [if_pos hfits] at hread
  obtain ⟨hcount, hbits⟩ := defaultBits_count t.value
  have hresult := createFromDecString_of_reader t.body_startsPlainly .notFixed hread rfl hcount
  rw [if_pos hbits] at hresult
  rw [createFromDecString_blanks, hresult, bitsCount, hbase]

theorem chunkVector_eq (hreadable : t.Readable) (hbound : t.bitsCount < uint32Size)
    (dontCare : DontCare) :
    chunkVector t.base.numberBase (t.blanks ++ t.body) dontCare =
      .ok (ofBits (numberBits t.bitsCount t.value) .notFixed) := by
  cases hbase : t.base with
  | binary => exact t.chunkVector_binary hbase hbound dontCare
  | decimal => exact t.chunkVector_decimal hbase (hreadable hbase)
  | hexadecimal => exact t.chunkVector_hexadecimal hbase hbound dontCare

theorem createFromString_eq (hreadable : t.Readable) (hbound : t.bitsCount < uint32Size)
    (p : SizeProperty) (dontCare : DontCare) :
    createFromString t.text p dontCare =
      .ok (ofBits (numberBits t.bitsCount t.value) p) :=
  createFromString_unsized (by decide) p dontCare t.getNextChunk_eq t.body_ne_nil
    (t.chunkVector_eq hreadable hbound dontCare) (by rwa [numberBits_length])

theorem createFromString_throws (hunreadable : ¬t.Readable) (p : SizeProperty)
    (dontCare : DontCare) : Throws (createFromString t.text p dontCare) := by
  obtain ⟨hbase, hlarge⟩ := Classical.not_imp.mp hunreadable
  have hread := t.readDecText_body hbase
  rw [if_neg hlarge] at hread
  refine createFromString_refused (by decide) p dontCare t.getNextChunk_eq (.inr ?_)
  rw [hbase, Base.numberBase]
  change Throws (createFromDecString (t.blanks ++ t.body) .notFixed)
  rw [createFromDecString_blanks]
  exact createFromDecString_of_fault t.body_startsPlainly .notFixed
    ⟨_, Fault.noConfusion, hread⟩

end BasedText

end BinaryVector

end Mast
