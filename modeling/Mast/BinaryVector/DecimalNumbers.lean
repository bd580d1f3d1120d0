import Mast.BinaryVector.DecimalText
import Mast.BinaryVector.SizedNumbers

/-!
# Decimal numbers

What `CreateFromDecString` and `CreateFromString` make of a decimal number: its digits after a size, a quote and the letter `d`, after the quote and the letter only, or on their own. The first gives the size to `Append`, which sees its last 8 bits; the second truncates a value of 32 or 64 bits to the size or extends it with its first bit.
-/

namespace Mast

open BitPacking

namespace BinaryVector

/-! ### Bits of numbers -/

theorem numberBits_getD {width i : Nat} (number : Nat) (hi : i < width) :
    (numberBits width number).getD (width - 1 - i) false = number.testBit i := by
  have hindex : width - 1 - (width - 1 - i) = i := by omega
  rw [numberBits, List.getD_eq_getElem?_getD, List.getElem?_map, List.getElem?_range (by omega),
    Option.map_some, Option.getD_some, hindex]

theorem unsignedValue_numberBits (width number : Nat) (p : SizeProperty) :
    (ofBits (numberBits width number) p).unsignedValue = number % 2 ^ width := by
  apply Nat.eq_of_testBit_eq
  intro i
  rw [unsignedValue_ofBits, numberBits_length, Nat.testBit_mod_two_pow]
  by_cases hin : i < width
  · rw [numberBits_getD number hin]
  · rw [decide_eq_false hin, Bool.false_and, Bool.false_and]

theorem numberBits_drop {count width : Nat} (hle : count ≤ width) (number : Nat) :
    (numberBits width number).drop (width - count) = numberBits count number := by
  apply List.ext_getElem
  · rw [List.length_drop, numberBits_length, numberBits_length]
    omega
  · intro i hleft hright
    rw [numberBits_length] at hright
    have hindex : width - 1 - (width - count + i) = count - 1 - i := by omega
    simp only [numberBits, List.getElem_drop, List.getElem_map, List.getElem_range, hindex]

theorem numberBits_head {width : Nat} (hpos : 0 < width) (number : Nat) :
    (numberBits width number).headD false = number.testBit (width - 1) := by
  obtain ⟨rest, rfl⟩ : ∃ rest, width = rest + 1 := ⟨width - 1, by omega⟩
  rw [numberBits, List.range_succ_eq_map, List.map_cons]
  rfl

/-- A number extended with zeros keeps its value, and only then. -/
theorem unsignedValue_extended_iff {count width number : Nat} (hpos : 0 < count)
    (hfits : number < 2 ^ width) (bit : Bool) (p : SizeProperty) :
    (ofBits (List.replicate count bit ++ numberBits width number) p).unsignedValue =
      number % 2 ^ (count + width) ↔ bit = false := by
  have hlength : (List.replicate count bit ++ numberBits width number).length = count + width := by
    rw [List.length_append, List.length_replicate, numberBits_length]
  have hbits (i : Nat) : (ofBits (List.replicate count bit ++ numberBits width number)
      p).unsignedValue.testBit i =
        if i < width then number.testBit i else decide (i < count + width) && bit := by
    rw [unsignedValue_ofBits, hlength, List.getD_eq_getElem?_getD]
    by_cases hlow : i < width
    · have hindex : count + width - 1 - i - count = width - 1 - i := by omega
      rw [if_pos hlow, decide_eq_true (by omega), Bool.true_and,
        List.getElem?_append_right (by rw [List.length_replicate]; omega), List.length_replicate,
        hindex, ← List.getD_eq_getElem?_getD, numberBits_getD number hlow]
    · rw [if_neg hlow]
      by_cases hin : i < count + width
      · rw [decide_eq_true hin, Bool.true_and, Bool.true_and,
          List.getElem?_append_left (by rw [List.length_replicate]; omega), List.getElem?_replicate,
          if_pos (by omega), Option.getD_some]
      · rw [decide_eq_false hin, Bool.false_and, Bool.false_and]
  have hhigh {i : Nat} (hi : width ≤ i) : number.testBit i = false :=
    Nat.testBit_lt_two_pow (lt_of_lt_of_le hfits (Nat.pow_le_pow_right (by decide) hi))
  constructor
  · intro hsame
    have htop := hbits (count + width - 1)
    rw [hsame, Nat.testBit_mod_two_pow, hhigh (by omega), Bool.and_false, if_neg (by omega),
      decide_eq_true (by omega), Bool.true_and] at htop
    exact htop.symm
  · rintro rfl
    apply Nat.eq_of_testBit_eq
    intro i
    rw [hbits, Nat.testBit_mod_two_pow]
    by_cases hlow : i < width
    · rw [if_pos hlow, decide_eq_true (by omega), Bool.true_and]
    · rw [if_neg hlow, hhigh (by omega), Bool.and_false]

/-! ### One number in `CreateFromString` -/

/-- `CreateFromString` of a text that starts with a character and is not read to its end. -/
theorem createFromString_throws {c : Char} {text : Text} {p : SizeProperty} {dontCare : DontCare}
    (hblank : isBlank c = false)
    (hread : Throws (appendChunkValues dontCare true (c :: text) (ofBits [] .notFixed))) :
    Throws (createFromString (c :: text) p dontCare) := by
  obtain ⟨fault, hfault, hread⟩ := hread
  have htrim := trimLeft_of_not_blank hblank text
  have hdrop : (c :: text).dropWhile isBlank = c :: text :=
    List.dropWhile_cons_of_neg (by simp [hblank])
  have hne : c :: text ≠ [] := List.cons_ne_nil _ _
  refine ⟨fault, hfault, ?_⟩
  simp only [createFromString, htrim, if_neg hne, hdrop, empty_eq_ofBits, hread]

theorem appendChunkValues_unread {firstChunk : Bool} {text : Text} {dontCare : DontCare}
    {result : BinaryVector} {fault : Fault} (hnext : getNextChunk firstChunk text = .error fault)
    (htext : text ≠ []) : appendChunkValues dontCare firstChunk text result = .error fault := by
  rw [appendChunkValues, if_neg htext]
  split
  · rename_i other hother
    rw [hnext] at hother
    obtain rfl := Except.error.inj hother
    rfl
  · rename_i hother
    rw [hnext] at hother
    cases hother

theorem appendChunkValues_refused {firstChunk : Bool} {text bitsChunk rest : Text}
    {info : EncodingInfo} {dontCare : DontCare} {result : BinaryVector} {fault : Fault}
    (hnext : getNextChunk firstChunk text = .ok (info, bitsChunk, rest))
    (hvalue : chunkValue info bitsChunk dontCare = .error fault) (htext : text ≠ []) :
    appendChunkValues dontCare firstChunk text result = .error fault := by
  rw [appendChunkValues, if_neg htext]
  split
  · rename_i other hother
    rw [hnext] at hother
    cases hother
  · rename_i info' bitsChunk' rest' hother
    rw [hnext] at hother
    obtain ⟨rfl, hpair⟩ := Prod.mk.inj (Except.ok.inj hother)
    obtain ⟨rfl, rfl⟩ := Prod.mk.inj hpair
    split
    · rename_i other hother
      rw [hvalue] at hother
      obtain rfl := Except.error.inj hother
      rfl
    · rename_i hother
      rw [hvalue] at hother
      cases hother

theorem chunkValue_throws (info : EncodingInfo) {bitsChunk : Text} {dontCare : DontCare}
    (hvector : bitsChunk = [] ∨ Throws (chunkVector info.base bitsChunk dontCare)) :
    Throws (chunkValue info bitsChunk dontCare) := by
  by_cases hchunk : bitsChunk = []
  · exact ⟨_, Fault.noConfusion, by rw [chunkValue, if_pos hchunk]⟩
  · obtain ⟨fault, hfault, hvector⟩ := hvector.resolve_left hchunk
    refine ⟨fault, hfault, ?_⟩
    simp only [chunkValue, if_neg hchunk, hvector]

section OneNumber

variable {c : Char} {text : Text} (hblank : isBlank c = false) (p : SizeProperty)
  (dontCare : DontCare)
include hblank

theorem createFromString_unread (hnext : Throws (getNextChunk true (c :: text))) :
    Throws (createFromString (c :: text) p dontCare) := by
  obtain ⟨fault, hfault, hnext⟩ := hnext
  exact createFromString_throws hblank
    ⟨fault, hfault, appendChunkValues_unread hnext (List.cons_ne_nil _ _)⟩

theorem createFromString_refused {bitsChunk rest : Text} {info : EncodingInfo}
    (hnext : getNextChunk true (c :: text) = .ok (info, bitsChunk, rest))
    (hvector : bitsChunk = [] ∨ Throws (chunkVector info.base bitsChunk dontCare)) :
    Throws (createFromString (c :: text) p dontCare) := by
  obtain ⟨fault, hfault, hvalue⟩ := chunkValue_throws info hvector
  exact createFromString_throws hblank
    ⟨fault, hfault, appendChunkValues_refused hnext hvalue (List.cons_ne_nil _ _)⟩

theorem createFromString_unsized {bitsChunk : Text} {base : NumberBase} {l : List Bool}
    (hnext : getNextChunk true (c :: text) = .ok (⟨base, false, 0⟩, bitsChunk, []))
    (hchunk : bitsChunk ≠ []) (hvector : chunkVector base bitsChunk dontCare = .ok (ofBits l .notFixed))
    (hlength : l.length < uint32Size) :
    createFromString (c :: text) p dontCare = .ok (ofBits l p) := by
  have hstep := appendChunkValues_step (l := []) hnext rfl hchunk hvector (.inl rfl)
    (by rw [List.length_nil]; omega) (List.cons_ne_nil _ _)
  rw [List.nil_append, appendChunkValues_nil] at hstep
  exact createFromString_of_chunks hblank hstep

theorem createFromString_resized {bitsChunk : Text} {base : NumberBase} {l : List Bool} {size : Nat}
    (hnext : getNextChunk true (c :: text) = .ok (⟨base, false, size⟩, bitsChunk, []))
    (hpos : 0 < size) (hbound : size < uint32Size) (hchunk : bitsChunk ≠ [])
    (hvector : chunkVector base bitsChunk dontCare = .ok (ofBits l .notFixed)) (hl : l ≠ [])
    (hlength : l.length < uint32Size) :
    createFromString (c :: text) p dontCare =
      .ok (ofBits (List.replicate (size - l.length) (l.headD false) ++ l.drop (l.length - size)) p) := by
  have hne : c :: text ≠ [] := List.cons_ne_nil _ _
  obtain ⟨kept, hkept⟩ : ∃ kept, kept = ofBits (l.drop (l.length - size)) .notFixed := ⟨_, rfl⟩
  have hvalue : ∃ extension, chunkValue ⟨base, false, size⟩ bitsChunk dontCare =
      .ok ⟨kept, extension, false⟩ ∧
      (appendChunkValue ⟨kept, extension, false⟩).run (ofBits [] .notFixed) =
        (append kept).run (ofBits (List.replicate (size - l.length) (l.headD false)) .notFixed) := by
    rcases Nat.lt_trichotomy size l.length with hlonger | hsame | hshorter
    · have hslice : (ofBits l .notFixed).slice (l.length - size) size = _ :=
        slice_eq (ofBits_wellFormed _ _).exactBytes hlength (by rw [ofBits_usedBits]; omega)
      rw [bits_ofBits, List.take_of_length_le (by rw [List.length_drop]; omega), ← hkept] at hslice
      have hnone : size - l.length = 0 := by omega
      refine ⟨none, chunkValue_truncated hchunk hvector (Nat.ne_of_gt hpos) hlonger hslice, ?_⟩
      rw [hnone]
      rfl
    · have hwhole : kept = ofBits l .notFixed := by
        rw [hkept, hsame, Nat.sub_self, List.drop_zero]
      have hnone : size - l.length = 0 := by omega
      refine ⟨none, ?_, ?_⟩
      · rw [hwhole]
        exact chunkValue_exact hchunk hvector (.inr hsame)
      · rw [hnone]
        rfl
    · have hwhole : kept = ofBits l .notFixed := by
        have hnone : l.length - size = 0 := by omega
        rw [hkept, hnone, List.drop_zero]
      have hnegative := SizedNumber.isNegative_ofBits hl .notFixed
      have hfront := appendBits_ofBits (l := []) (p := .notFixed) (l.headD false) (size - l.length)
        (.inl rfl) (by decide) (by rw [List.length_nil]; omega)
      refine ⟨some (l.headD false, size - l.length), ?_, ?_⟩
      · rw [hwhole]
        exact chunkValue_extended hchunk hvector (Nat.ne_of_gt hpos) hshorter hnegative
      · rw [List.nil_append] at hfront
        simp only [appendChunkValue, EStateM.run_bind, hfront]
        rfl
  obtain ⟨extension, hvalue, hrun⟩ := hvalue
  have happend := append_ofBits (l := List.replicate (size - l.length) (l.headD false))
    (p := .notFixed) (ofBits_wellFormed (l.drop (l.length - size)) .notFixed).exactBytes (by decide)
    (by rw [List.length_replicate, ofBits_usedBits, List.length_drop]; omega)
  rw [bits_ofBits, ← hkept] at happend
  have hstep := appendChunkValues_next hnext hvalue (hrun.trans happend) hne
  rw [appendChunkValues_nil] at hstep
  exact createFromString_of_chunks hblank hstep

end OneNumber

/-! ### Where a number starts -/

/-- Digits are read as long as the number they make fits in 32 bits. -/
theorem readUInt32_digits {digits : Text} (hdigits : ∀ c ∈ digits, (decDigitValue c).isSome)
    {value : Nat} (hvalue : value < uint32Size) (rest : Text) (count : Nat) :
    readUInt32 (digits ++ rest) value count =
      if continued value digits < uint32Size then
        readUInt32 rest (continued value digits) (count + digits.length)
      else .error (.outOfRange "Parsed value is out of uint32_t range") := by
  induction digits generalizing value count with
  | nil => exact (if_pos hvalue).symm
  | cons c digits ih =>
    obtain ⟨digit, hdigit⟩ := Option.isSome_iff_exists.mp (hdigits c List.mem_cons_self)
    have hrest : ∀ c ∈ digits, (decDigitValue c).isSome :=
      fun c hc => hdigits c (List.mem_cons_of_mem _ hc)
    have hsmall := decDigitValue_lt hdigit
    have hle := le_continued (10 * value + digit) digits
    have hsize : uint32Size = 4294967296 := rfl
    have hcomm : value * 10 + digit = 10 * value + digit := by omega
    have hcount : count + (c :: digits).length = count + 1 + digits.length := by
      rw [List.length_cons]
      omega
    rw [List.cons_append, readUInt32, hdigit, continued_cons hdigit, hcount]
    simp only [hcomm]
    by_cases hfits : 10 * value + digit < uint32Size
    · have hlarge : ¬value > (uint32Size - 1) / 10 := by omega
      have hwraps : ¬(10 * value + digit) % uint32Size < value * 10 := by
        rw [Nat.mod_eq_of_lt hfits]
        omega
      rw [if_neg hlarge, if_neg hwraps, ih hrest hfits]
    · rw [if_neg (show ¬continued (10 * value + digit) digits < uint32Size by omega)]
      by_cases hlarge : value > (uint32Size - 1) / 10
      · rw [if_pos hlarge]
      · have hwraps : (10 * value + digit) % uint32Size < value * 10 := by
          rw [hsize] at *
          omega
        rw [if_neg hlarge, if_pos hwraps]

/-- A number that starts with no zero is taken for a size, if it fits in 32 bits. -/
theorem toUInt32_digits {c : Char} {more : Text}
    (hdigits : ∀ other ∈ c :: more, (decDigitValue other).isSome) (hzero : c ≠ '0') (rest : Text)
    (hrest : ∀ other, rest.head? = some other → decDigitValue other = none) :
    toUInt32 (c :: more ++ rest) =
      if numberOf (c :: more) < uint32Size then .ok (numberOf (c :: more), (c :: more).length)
      else .error (.outOfRange "Parsed value is out of uint32_t range") := by
  obtain ⟨hspace, htab, htilde, -⟩ := digit_plain (hdigits c List.mem_cons_self)
  have hplus : c ≠ '+' := by
    rintro rfl
    exact absurd (hdigits '+' List.mem_cons_self) (by decide)
  have htrim : trimLeft (c :: (more ++ rest)) = c :: (more ++ rest) :=
    List.dropWhile_cons_of_neg (by simp [hspace, htab])
  have hzeros : (c :: (more ++ rest)).dropWhile (fun c => decide (c = '0')) = c :: (more ++ rest) :=
    List.dropWhile_cons_of_neg (by simpa using hzero)
  have hread := readUInt32_digits hdigits (show 0 < uint32Size by decide) rest 0
  have hstop (value count : Nat) : readUInt32 rest value count = .ok (value, count) := by
    cases rest with
    | nil => rfl
    | cons other rest =>
      have hnone := hrest other rfl
      simp only [readUInt32, hnone]
  have hnumber : continued 0 (c :: more) = numberOf (c :: more) := rfl
  rw [hstop, hnumber, Nat.zero_add] at hread
  rw [List.cons_append] at hread ⊢
  have hnotPlus : ¬List.head? (c :: (more ++ rest)) = some '+' := by simpa using hplus
  simp only [toUInt32, htrim, if_neg (List.cons_ne_nil _ _), if_neg hnotPlus, hzeros, hread]
  by_cases hfits : numberOf (c :: more) < uint32Size
  · rw [if_pos hfits]
    simp
  · rw [if_neg hfits]

theorem digit_range_starts {c : Char} (hlow : '1' ≤ c) (hhigh : c ≤ '9') (firstChunk : Bool) :
    ¬(c = '/' ∨ c = '\\' ∨ firstChunk ∧ c = '0') ∧ c ≠ '~' ∧ isBlank c = false := by
  have hexcluded : ∀ other : Char, ¬('1' ≤ other ∧ other ≤ '9') → c ≠ other := by
    rintro other hother rfl
    exact hother ⟨hlow, hhigh⟩
  refine ⟨?_, hexcluded '~' (by decide), ?_⟩
  · rintro (h | h | ⟨-, h⟩)
    · exact hexcluded '/' (by decide) h
    · exact hexcluded '\\' (by decide) h
    · exact hexcluded '0' (by decide) h
  · rw [← Bool.not_eq_true]
    intro hblank
    have hmem := of_decide_eq_true hblank
    simp only [List.mem_cons, List.not_mem_nil, or_false] at hmem
    rcases hmem with h | h | h
    · exact hexcluded '\n' (by decide) h
    · exact hexcluded '\t' (by decide) h
    · exact hexcluded ' ' (by decide) h

theorem extractEncodingInfo_digit {c : Char} (hlow : '1' ≤ c) (hhigh : c ≤ '9') (firstChunk : Bool)
    (rest : Text) :
    extractEncodingInfo firstChunk (c :: rest) = extractIclInfo false (c :: rest) := by
  obtain ⟨hguard, htilde, -⟩ := digit_range_starts hlow hhigh firstChunk
  simp only [extractEncodingInfo, if_neg hguard, if_neg htilde]

/-- A size that does not fit in 32 bits is refused. -/
theorem getNextChunk_largeSize {size : Nat} (hlarge : uint32Size ≤ size) (rest : Text) :
    Throws (getNextChunk true (decimal size ++ '\'' :: rest)) := by
  have hsize : uint32Size = 4294967296 := rfl
  have hpos : 0 < size := by omega
  obtain ⟨c, more, hdecimal, hlow, hhigh⟩ := decimal_head hpos
  have hdigits := decimal_digits size
  have hnumber := numberOf_decimal size
  have htrim := decimal_not_blank hpos ('\'' :: rest)
  rw [hdecimal] at hdigits hnumber htrim ⊢
  have hzero : c ≠ '0' := by
    rintro rfl
    exact absurd hlow (by decide)
  have hread := toUInt32_digits hdigits hzero ('\'' :: rest) (by
    rintro other hother
    obtain rfl := Option.some.inj hother
    rfl)
  rw [hnumber, if_neg (by omega)] at hread
  refine ⟨.outOfRange "Parsed value is out of uint32_t range", Fault.noConfusion, ?_⟩
  simp only [getNextChunk, htrim]
  rw [List.cons_append] at hread ⊢
  simp only [extractEncodingInfo_digit hlow hhigh, extractIclInfo, if_pos (And.intro hlow hhigh),
    hread]

theorem getNextChunk_quoted {body : Text} (rest : Text) (hbody : ∀ c ∈ body, endsChunk c = false)
    (hrest : ∀ c, rest.head? = some c → endsChunk c = true) :
    getNextChunk true ('\'' :: 'd' :: (body ++ rest)) =
      .ok (⟨.decimal, false, 0⟩, body, afterComma rest) := by
  have htrim : trimLeft ('\'' :: 'd' :: (body ++ rest)) = '\'' :: 'd' :: (body ++ rest) :=
    List.dropWhile_cons_of_neg (by decide)
  have hextract : extractEncodingInfo true ('\'' :: 'd' :: (body ++ rest)) =
      .ok (⟨.decimal, false, 0⟩, body ++ rest) := rfl
  refine getNextChunk_of_encoding ?_ NumberBase.noConfusion hbody hrest
  rw [htrim, hextract]

/-- Digits on their own are a decimal number, but a leading zero is the prefix of another base and what does not fit in 32 bits is refused. -/
theorem getNextChunk_bare {digits : Text} (hne : digits ≠ [])
    (hdigits : ∀ c ∈ digits, (decDigitValue c).isSome) :
    digits.head? = some '0' ∧
        getNextChunk true digits = .ok (⟨.undefined, false, 0⟩, digits, digits) ∨
      uint32Size ≤ numberOf digits ∧ Throws (getNextChunk true digits) ∨
        numberOf digits < uint32Size ∧
          getNextChunk true digits = .ok (⟨.decimal, false, 0⟩, digits, []) := by
  obtain ⟨c, more, rfl⟩ := List.exists_cons_of_ne_nil hne
  obtain ⟨hspace, htab, htilde, -⟩ := digit_plain (hdigits c List.mem_cons_self)
  have htrim : trimLeft (c :: more) = c :: more :=
    List.dropWhile_cons_of_neg (by simp [hspace, htab])
  by_cases hzero : c = '0'
  · subst hzero
    left
    have hbase : numberBaseForValuePrefix more = .undefined := by
      cases more with
      | nil => rfl
      | cons other more =>
        have hdigit := hdigits other (List.mem_cons_of_mem _ List.mem_cons_self)
        have hexcluded : ∀ letter : Char, decDigitValue letter = none → other ≠ letter := by
          rintro letter hletter rfl
          rw [hletter] at hdigit
          cases hdigit
        have hb : ¬(other = 'b' ∨ other = 'B') :=
          not_or.mpr ⟨hexcluded 'b' rfl, hexcluded 'B' rfl⟩
        have hh : ¬other ∈ ['h', 'H', 'x', 'X'] := by
          simp only [List.mem_cons, List.not_mem_nil, or_false]
          rintro (h | h | h | h)
          · exact hexcluded 'h' rfl h
          · exact hexcluded 'H' rfl h
          · exact hexcluded 'x' rfl h
          · exact hexcluded 'X' rfl h
        have hd : ¬(other = 'd' ∨ other = 'D') :=
          not_or.mpr ⟨hexcluded 'd' rfl, hexcluded 'D' rfl⟩
        have ho : ¬(other = 'o' ∨ other = 'O') :=
          not_or.mpr ⟨hexcluded 'o' rfl, hexcluded 'O' rfl⟩
        simp only [numberBaseForValuePrefix, if_neg hb, if_neg hh, if_neg hd, if_neg ho]
    refine ⟨rfl, ?_⟩
    simp only [getNextChunk, htrim, extractEncodingInfo, hbase]
    rfl
  · right
    obtain ⟨hlow, hhigh⟩ := digit_range (hdigits c List.mem_cons_self) hzero
    have hread := toUInt32_digits hdigits hzero [] (by simp)
    rw [List.append_nil] at hread
    by_cases hfits : numberOf (c :: more) < uint32Size
    · right
      rw [if_pos hfits] at hread
      have hsome : ¬numberOf (c :: more) = 0 := by
        obtain ⟨digit, hdigit⟩ := Option.isSome_iff_exists.mp (hdigits c List.mem_cons_self)
        have hle := le_continued (10 * 0 + digit) more
        rw [← continued_cons hdigit] at hle
        have hdigitPos : digit ≠ 0 := by
          rintro rfl
          exact hzero (eq_zero_of_decDigitValue hdigit)
        change ¬continued 0 (c :: more) = 0
        omega
      refine ⟨hfits, ?_⟩
      have hend : (c :: more)[(c :: more).length]? = none := List.getElem?_eq_none (Nat.le_refl _)
      have hextract : extractEncodingInfo true (trimLeft (c :: more)) =
          .ok (⟨.decimal, false, 0⟩, c :: more ++ []) := by
        rw [htrim, List.append_nil]
        simp only [extractEncodingInfo_digit hlow hhigh, extractIclInfo,
          if_pos (And.intro hlow hhigh), hread, hend, reduceCtorEq, if_false, ne_eq, hsome,
          not_false_eq_true, if_true]
      exact getNextChunk_of_encoding hextract NumberBase.noConfusion
        (fun other hother => (digit_plain (hdigits other hother)).2.2.2) (by simp)
    · left
      rw [if_neg hfits] at hread
      refine ⟨Nat.le_of_not_lt hfits, .outOfRange "Parsed value is out of uint32_t range",
        Fault.noConfusion, ?_⟩
      simp only [getNextChunk, htrim, extractEncodingInfo_digit hlow hhigh, extractIclInfo,
        if_pos (And.intro hlow hhigh), hread]

end BinaryVector

end Mast
