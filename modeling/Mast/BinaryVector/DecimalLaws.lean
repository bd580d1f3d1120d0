import Mast.BinaryVector.DecimalNumbers

/-!
# Decimal numbers are never silently wrong

What the two parsers should do with decimal numbers, and exactly when each of them does: for a size and a value, for a value without a size, for one that does not fit in 64 bits, for one without digits, and at the end of any text, where the loop that skips the leading zeros of a decimal number and the one that skips the leading blanks of a hexadecimal number ask for a character whether or not there is one.
-/

namespace Mast

open BitPacking

namespace BinaryVector

/-- A call that returns a number in a vector of the given size. -/
def HoldsNumber (bitsCount number : Nat) (result : Except Fault BinaryVector) : Prop :=
  ∃ v, result = .ok v ∧ v.usedBits = bitsCount ∧ v.unsignedValue = number

/-! ### The end of a text -/

/-- The loop over leading zeros asks for the first character of what is left, even of nothing. -/
def skipsPastEnd : Text → Bool
  | [] => true
  | c :: rest => if c = '0' then skipsPastEnd rest else false

/-- `CreateFromDecString` asks for a character behind the end of its text. -/
def decReadsPastEnd (text : Text) : Bool :=
  let text := trimLeft text
  if text = [] then false
  else skipsPastEnd (if text.head? = some '~' then text.tail else text)

/-- `CreateFromHexString` asks for a character behind the end of its text: its loop over leading blanks has no bound, whereas that of `CreateFromBinaryString` has one. -/
def hexReadsPastEnd (text : Text) : Bool := text.all isBlank

/-- The factory of a base asks for a character behind a number at the end of the text; an empty number is refused before. -/
def numberReadsPastEnd (base : NumberBase) (number : Text) : Bool :=
  if number = [] then false
  else
    match base with
    | .decimal => decReadsPastEnd number
    | .hexadecimal => hexReadsPastEnd number
    | _ => false

/-- The next chunk is a number that the text ends with, and is read past its end. -/
def lastNumberPastEnd (firstChunk : Bool) (text : Text) : Bool :=
  match extractEncodingInfo firstChunk (trimLeft text) with
  | .error _ => false
  | .ok (info, number) =>
    number.all (fun c => !endsChunk c) && numberReadsPastEnd info.base number

/-- The loop of `CreateFromString` comes to a number that is read past the end of the text. -/
def readsPastEnd (dontCare : DontCare) (firstChunk : Bool) (text : Text) (result : BinaryVector) :
    Bool :=
  if text = [] then false
  else if lastNumberPastEnd firstChunk text then true
  else
    match _hnext : getNextChunk firstChunk text with
    | .error _ => false
    | .ok (info, bitsChunk, rest) =>
      match _hvalue : chunkValue info bitsChunk dontCare with
      | .error _ => false
      | .ok chunk =>
        match build result (appendChunkValue chunk) with
        | .error _ => false
        | .ok result => readsPastEnd dontCare false rest result
termination_by text.length
decreasing_by exact chunkValue_length_lt _hnext _hvalue

/-- `CreateFromString` asks for a character behind the end of its text. -/
def stringReadsPastEnd (dontCare : DontCare) (text : Text) : Bool :=
  let text := trimLeft text
  if text = [] then false
  else readsPastEnd dontCare true (text.dropWhile isBlank) empty

/-- A decimal text in which something other than zeros follows the blanks and the tilde, unless it has blanks only. -/
def ReadsWithin (text : Text) : Prop :=
  trimLeft text = [] ∨
    ∃ c ∈ (if (trimLeft text).head? = some '~' then (trimLeft text).tail else trimLeft text), c ≠ '0'

/-- A number at the end of a text that is read without a look behind it: a decimal one holds something other than zeros, unless it is blank, and a hexadecimal one something other than blanks. -/
def NumberWithin (base : NumberBase) (number : Text) : Prop :=
  (base = .decimal → ReadsWithin number) ∧
    (base = .hexadecimal → number = [] ∨ ∃ c ∈ number, isBlank c = false)

/-- The number that the loop of `CreateFromString` finds at the end of a text, with its base, if everything before it is accepted. -/
inductive LastNumber (dontCare : DontCare) :
    Bool → Text → BinaryVector → NumberBase → Text → Prop
  | last {firstChunk : Bool} {text number : Text} {result : BinaryVector} {info : EncodingInfo} :
      text ≠ [] → extractEncodingInfo firstChunk (trimLeft text) = .ok (info, number) →
      (∀ c ∈ number, endsChunk c = false) →
      LastNumber dontCare firstChunk text result info.base number
  | next {firstChunk : Bool} {text bitsChunk rest number : Text} {result result' : BinaryVector}
      {info : EncodingInfo} {chunk : ChunkValue} {base : NumberBase} :
      text ≠ [] → getNextChunk firstChunk text = .ok (info, bitsChunk, rest) →
      chunkValue info bitsChunk dontCare = .ok chunk →
      build result (appendChunkValue chunk) = .ok result' →
      LastNumber dontCare false rest result' base number →
      LastNumber dontCare firstChunk text result base number

theorem skipsPastEnd_iff (text : Text) : skipsPastEnd text = false ↔ ∃ c ∈ text, c ≠ '0' := by
  induction text with
  | nil => simp [skipsPastEnd]
  | cons c rest ih =>
    rw [skipsPastEnd]
    by_cases hzero : c = '0'
    · subst hzero
      rw [if_pos rfl, ih]
      simp
    · simp only [if_neg hzero]
      exact iff_of_true trivial ⟨c, List.mem_cons_self, hzero⟩

theorem decReadsPastEnd_iff (text : Text) : decReadsPastEnd text = false ↔ ReadsWithin text := by
  unfold decReadsPastEnd ReadsWithin
  by_cases hnone : trimLeft text = []
  · simp only [if_pos hnone]
    exact iff_of_true trivial (.inl hnone)
  · simp only [if_neg hnone]
    rw [skipsPastEnd_iff, or_iff_right hnone]

theorem hexReadsPastEnd_iff (text : Text) :
    hexReadsPastEnd text = false ↔ ∃ c ∈ text, isBlank c = false := by
  simp [hexReadsPastEnd]

theorem numberReadsPastEnd_iff (base : NumberBase) (number : Text) :
    numberReadsPastEnd base number = false ↔ NumberWithin base number := by
  unfold numberReadsPastEnd NumberWithin
  by_cases hnone : number = []
  · subst hnone
    rw [if_pos rfl]
    exact iff_of_true rfl ⟨fun _ => .inl rfl, fun _ => .inl rfl⟩
  · rw [if_neg hnone, or_iff_right hnone, ← decReadsPastEnd_iff, ← hexReadsPastEnd_iff]
    cases base <;> simp

theorem lastNumberPastEnd_iff (firstChunk : Bool) (text : Text) :
    lastNumberPastEnd firstChunk text = true ↔
      ∃ info number, extractEncodingInfo firstChunk (trimLeft text) = .ok (info, number) ∧
        (∀ c ∈ number, endsChunk c = false) ∧ numberReadsPastEnd info.base number = true := by
  unfold lastNumberPastEnd
  cases hextract : extractEncodingInfo firstChunk (trimLeft text) with
  | error fault => simp
  | ok found =>
    obtain ⟨info, number⟩ := found
    simp

theorem readsPastEnd_next {dontCare : DontCare} {firstChunk : Bool} {text bitsChunk rest : Text}
    {result result' : BinaryVector} {info : EncodingInfo} {chunk : ChunkValue} (hnone : text ≠ [])
    (hlast : lastNumberPastEnd firstChunk text ≠ true)
    (hnext : getNextChunk firstChunk text = .ok (info, bitsChunk, rest))
    (hvalue : chunkValue info bitsChunk dontCare = .ok chunk)
    (hbuild : build result (appendChunkValue chunk) = .ok result') :
    readsPastEnd dontCare firstChunk text result = readsPastEnd dontCare false rest result' := by
  rw [readsPastEnd, if_neg hnone, if_neg hlast]
  split
  · rename_i fault hother
    rw [hnext] at hother
    cases hother
  · rename_i info' bitsChunk' rest' hother
    rw [hnext] at hother
    obtain ⟨rfl, hpair⟩ := Prod.mk.inj (Except.ok.inj hother)
    obtain ⟨rfl, rfl⟩ := Prod.mk.inj hpair
    split
    · rename_i fault hother
      rw [hvalue] at hother
      cases hother
    · rename_i chunk' hother
      rw [hvalue] at hother
      obtain rfl := Except.ok.inj hother
      rw [hbuild]

/-- A loop that reads past the end does so at the number it has come to, or at a later one. -/
theorem readsPastEnd_cases {dontCare : DontCare} {firstChunk : Bool} {text : Text}
    {result : BinaryVector} (hpast : readsPastEnd dontCare firstChunk text result = true) :
    text ≠ [] ∧ (lastNumberPastEnd firstChunk text = true ∨
      ∃ info bitsChunk rest chunk result', getNextChunk firstChunk text = .ok (info, bitsChunk, rest) ∧
        chunkValue info bitsChunk dontCare = .ok chunk ∧
        build result (appendChunkValue chunk) = .ok result' ∧
        readsPastEnd dontCare false rest result' = true) := by
  rw [readsPastEnd] at hpast
  by_cases hnone : text = []
  · rw [if_pos hnone] at hpast
    cases hpast
  refine ⟨hnone, ?_⟩
  rw [if_neg hnone] at hpast
  by_cases hlast : lastNumberPastEnd firstChunk text = true
  · exact .inl hlast
  rw [if_neg hlast] at hpast
  split at hpast
  · cases hpast
  · rename_i info bitsChunk rest hnext
    split at hpast
    · cases hpast
    · rename_i chunk hvalue
      split at hpast
      · cases hpast
      · rename_i result' hbuild
        exact .inr ⟨info, bitsChunk, rest, chunk, result', hnext, hvalue, hbuild, hpast⟩

/-- The loop reads past the end of a text exactly if the number at its end is read so. -/
theorem readsPastEnd_iff (dontCare : DontCare) (firstChunk : Bool) (text : Text)
    (result : BinaryVector) :
    readsPastEnd dontCare firstChunk text result = true ↔
      ∃ base number, LastNumber dontCare firstChunk text result base number ∧
        numberReadsPastEnd base number = true := by
  constructor
  · intro hpast
    obtain ⟨count, hcount⟩ : ∃ count, text.length = count := ⟨_, rfl⟩
    induction count using Nat.strong_induction_on generalizing firstChunk text result with
    | _ count ih =>
      obtain ⟨hnone, hlast | hlater⟩ := readsPastEnd_cases hpast
      · obtain ⟨info, number, hextract, hend, hpast⟩ :=
          (lastNumberPastEnd_iff firstChunk text).mp hlast
        exact ⟨info.base, number, .last hnone hextract hend, hpast⟩
      · obtain ⟨info, bitsChunk, rest, chunk, result', hnext, hvalue, hbuild, hpast⟩ := hlater
        have hless := chunkValue_length_lt hnext hvalue
        obtain ⟨base, number, hnumber, hbehind⟩ :=
          ih rest.length (hcount ▸ hless) false rest result' hpast rfl
        exact ⟨base, number, .next hnone hnext hvalue hbuild hnumber, hbehind⟩
  · rintro ⟨base, number, hnumber, hbehind⟩
    induction hnumber with
    | last hnone hextract hend =>
      have hlast := (lastNumberPastEnd_iff _ _).mpr ⟨_, _, hextract, hend, hbehind⟩
      rw [readsPastEnd, if_neg hnone, if_pos hlast]
    | @next firstChunk text _ _ _ _ _ _ _ _ hnone hnext hvalue hbuild hnumber ih =>
      by_cases hlast : lastNumberPastEnd firstChunk text = true
      · rw [readsPastEnd, if_neg hnone, if_pos hlast]
      · rw [readsPastEnd_next hnone hlast hnext hvalue hbuild]
        exact ih hbehind

/-! ### What a parser of decimal numbers should do -/

/-- A parser: what it makes of a text, whether it asks for a character behind it, the characters at which it ends a number and the digits that it may refuse without a base. -/
structure DecimalParser where
  parse : Text → Except Fault BinaryVector
  pastEnd : Text → Bool
  endsNumber : Char → Bool
  bareRefused : Text → Prop

/-- `CreateFromDecString`, of which the whole text is one number. -/
def decStringParser (p : SizeProperty) : DecimalParser where
  parse text := createFromDecString text p
  pastEnd := decReadsPastEnd
  endsNumber _ := false
  bareRefused _ := False

/-- `CreateFromString`, which takes a leading zero for the prefix of another base and digits for a size of 32 bits until it knows better. -/
def stringParser (p : SizeProperty) (dontCare : DontCare) : DecimalParser where
  parse text := createFromString text p dontCare
  pastEnd := stringReadsPastEnd dontCare
  endsNumber := endsChunk
  bareRefused digits := digits.head? = some '0' ∨ uint32Size ≤ numberOf digits

/-- No decimal number is silently wrong. -/
structure DecimalLaws (parser : DecimalParser) (size : Nat) (digits tail text : Text) : Prop where
  sized : numberOf digits < uint64Size →
    Throws (parser.parse (decimal size ++ '\'' :: 'd' :: digits)) ∨
      HoldsNumber size (numberOf digits % 2 ^ size)
        (parser.parse (decimal size ++ '\'' :: 'd' :: digits))
  quoted : numberOf digits < uint64Size →
    HoldsNumber (defaultBits (numberOf digits)) (numberOf digits)
      (parser.parse ('\'' :: 'd' :: digits))
  bare : numberOf digits < uint64Size →
    parser.bareRefused digits ∧ Throws (parser.parse digits) ∨
      HoldsNumber (defaultBits (numberOf digits)) (numberOf digits) (parser.parse digits)
  tooLarge : uint64Size ≤ numberOf digits →
    Throws (parser.parse (decimal size ++ '\'' :: 'd' :: digits)) ∧
      Throws (parser.parse ('\'' :: 'd' :: digits)) ∧ Throws (parser.parse digits)
  noDigit : (∀ c ∈ tail, parser.endsNumber c = false) →
    Throws (parser.parse (decimal size ++ '\'' :: 'd' :: tail)) ∧
      Throws (parser.parse ('\'' :: 'd' :: tail))
  withinText : parser.pastEnd text = false

theorem not_throws_ok {α : Type} (value : α) : ¬Throws (Except.ok value) := by
  rintro ⟨fault, -, hfault⟩
  cases hfault

theorem defaultBits_fits {value : Nat} (hfits : value < uint64Size) :
    value < 2 ^ defaultBits value := by
  have hsize : uint64Size = 2 ^ 64 := rfl
  have hsmaller : uint32Size = 2 ^ 32 := rfl
  rw [defaultBits]
  by_cases hsmall : value < uint32Size
  · rwa [if_pos hsmall, ← hsmaller]
  · rwa [if_neg hsmall, ← hsize]

theorem holdsNumber_ofBits {l : List Bool} {p : SizeProperty} {bitsCount number : Nat} :
    HoldsNumber bitsCount number (.ok (ofBits l p)) ↔
      l.length = bitsCount ∧ (ofBits l p).unsignedValue = number := by
  constructor
  · rintro ⟨v, hv, hcount, hnumber⟩
    obtain rfl := Except.ok.inj hv
    exact ⟨(ofBits_usedBits l p).symm.trans hcount, hnumber⟩
  · rintro ⟨hcount, hnumber⟩
    exact ⟨_, rfl, (ofBits_usedBits l p).trans hcount, hnumber⟩

theorem holdsNumber_numberBits {count number : Nat} (hfits : number < 2 ^ count)
    (p : SizeProperty) : HoldsNumber count number (.ok (ofBits (numberBits count number) p)) :=
  holdsNumber_ofBits.mpr ⟨numberBits_length _ _,
    (unsignedValue_numberBits _ _ _).trans (Nat.mod_eq_of_lt hfits)⟩

/-! ### `CreateFromDecString` -/

section DecString

variable {size : Nat} {digits : Text} (p : SizeProperty)

/-- A value keeps its size up to 64 bits, and is refused when 8 bits of the size say so. -/
theorem createFromDecString_sized_iff (hpos : 0 < size)
    (hdigits : ∀ c ∈ digits, (decDigitValue c).isSome) (hfits : numberOf digits < uint64Size) :
    (Throws (createFromDecString (decimal size ++ '\'' :: 'd' :: digits) p) ∨
      HoldsNumber size (numberOf digits % 2 ^ size)
        (createFromDecString (decimal size ++ '\'' :: 'd' :: digits) p)) ↔
      SizeRefused size ∨ size ≤ 64 := by
  have hread (text : Text) := readDecChars_value hdigits (size % uint32Size) true text
  simp only [if_pos hfits] at hread
  by_cases hrefused : SizeRefused size
  · exact iff_of_true (.inl (createFromDecString_sizeRefused hpos p hrefused hread))
      (.inl hrefused)
  · rw [createFromDecString_sizeKept hpos p hrefused hread, or_iff_right (not_throws_ok _),
      or_iff_right hrefused, holdsNumber_ofBits, numberBits_length, unsignedValue_numberBits]
    unfold SizeRefused at hrefused
    constructor
    · rintro ⟨hcount, -⟩
      omega
    · intro hsmall
      have hsame : size % 256 = size := by omega
      rw [hsame]
      exact ⟨rfl, rfl⟩

/-- Without any digit the letter is one, unless a character is refused. -/
theorem createFromDecString_noDigit_iff (hpos : 0 < size) {tail : Text}
    (htail : ∀ c ∈ tail, decDigitValue c = none) :
    Throws (createFromDecString (decimal size ++ '\'' :: 'd' :: tail) p) ∧
        Throws (createFromDecString ('\'' :: 'd' :: tail) p) ↔
      ∃ c ∈ tail, isSeparator c = false := by
  constructor
  · rintro ⟨-, hquoted⟩
    by_contra hnone
    have hread : ∀ text, readDecChars text tail ⟨32, true, false, false, 0⟩ =
        .ok ⟨32, true, false, false, 0⟩ := by
      intro text
      rcases readDecChars_tail htail ⟨32, true, false, false, 0⟩ rfl
        (.inr (.inl ⟨rfl, rfl⟩)) text with ⟨-, hok⟩ | ⟨hbad, -⟩
      · exact hok
      · exact absurd hbad hnone
    rw [createFromDecString_quoted p hread] at hquoted
    exact not_throws_ok _ hquoted
  · rintro ⟨c, hc, hbad⟩
    have hread {reader : DecReader} (hquote : reader.nextMustBeD = false)
        (hsize : reader.hasSize ∨ reader.parsedDigits ∧ reader.value % uint32Size = 0)
        (text : Text) : Throws (readDecChars text tail reader) := by
      rcases readDecChars_tail htail reader hquote (hsize.imp_right .inl) text with ⟨hall, -⟩ | ⟨-, hthrows⟩
      · rw [hall c hc] at hbad
        cases hbad
      · exact hthrows
    exact ⟨createFromDecString_sizedFault hpos p (hread rfl (.inl rfl)),
      createFromDecString_quotedFault p (hread rfl (.inr ⟨rfl, rfl⟩))⟩

theorem createFromDecString_laws (hpos : 0 < size) (hne : digits ≠ [])
    (hdigits : ∀ c ∈ digits, (decDigitValue c).isSome) {tail : Text}
    (htail : ∀ c ∈ tail, decDigitValue c = none) (text : Text) :
    DecimalLaws (decStringParser p) size digits tail text ↔
      (SizeRefused size ∨ size ≤ 64 ∨ uint64Size ≤ numberOf digits) ∧
        (∃ c ∈ tail, isSeparator c = false) ∧ ReadsWithin text := by
  have hsized := createFromDecString_sized_iff p hpos hdigits
  have hnone := createFromDecString_noDigit_iff p hpos htail
  have hread (bitsCount : Nat) (hasSize : Bool) (text : Text) :=
    readDecChars_value hdigits bitsCount hasSize text
  constructor
  · intro hlaws
    refine ⟨?_, hnone.mp (hlaws.noDigit fun _ _ => rfl), (decReadsPastEnd_iff text).mp hlaws.withinText⟩
    by_cases hfits : numberOf digits < uint64Size
    · exact ((hsized hfits).mp (hlaws.sized hfits)).imp_right .inl
    · exact .inr (.inr (Nat.le_of_not_lt hfits))
  · rintro ⟨hsize, hbad, hwithin⟩
    refine ⟨?_, ?_, ?_, ?_, fun _ => hnone.mpr hbad, (decReadsPastEnd_iff text).mpr hwithin⟩
    · intro hfits
      exact (hsized hfits).mpr (hsize.imp_right fun h => h.resolve_right (by omega))
    · intro hfits
      simp only [decStringParser]
      rw [createFromDecString_quoted p fun text => (hread _ _ text).trans (if_pos hfits)]
      exact holdsNumber_numberBits (defaultBits_fits hfits) p
    · intro hfits
      right
      simp only [decStringParser]
      rw [createFromDecString_digits hdigits hne hfits p]
      exact holdsNumber_numberBits (defaultBits_fits hfits) p
    · intro hlarge
      have hthrows (bitsCount : Nat) (hasSize : Bool) (text : Text) :
          Throws (readDecChars text digits ⟨bitsCount, true, hasSize, false, 0⟩) := by
        have hfault := hread bitsCount hasSize text
        rw [if_neg (by omega)] at hfault
        exact ⟨_, Fault.noConfusion, hfault⟩
      exact ⟨createFromDecString_sizedFault hpos p (hthrows _ _),
        createFromDecString_quotedFault p (hthrows _ _),
        createFromDecString_tooLarge hdigits hne hlarge p⟩

end DecString

/-! ### `CreateFromString` -/

/-- `CreateFromString` asks for a character behind its text exactly if the text ends with a decimal number of zeros only or with a hexadecimal number of blanks only. -/
theorem stringReadsPastEnd_iff (dontCare : DontCare) (text : Text) :
    stringReadsPastEnd dontCare text = false ↔
      trimLeft text = [] ∨ ∀ base number,
        LastNumber dontCare true ((trimLeft text).dropWhile isBlank) empty base number →
          NumberWithin base number := by
  simp only [stringReadsPastEnd]
  by_cases hnone : trimLeft text = []
  · rw [if_pos hnone]
    exact iff_of_true rfl (.inl hnone)
  · rw [if_neg hnone, or_iff_right hnone, ← Bool.not_eq_true, readsPastEnd_iff]
    constructor
    · intro hall base number hnumber
      rw [← numberReadsPastEnd_iff, ← Bool.not_eq_true]
      exact fun hpast => hall ⟨base, number, hnumber, hpast⟩
    · rintro hall ⟨base, number, hnumber, hpast⟩
      have hwithin := (numberReadsPastEnd_iff base number).mpr (hall base number hnumber)
      rw [hpast] at hwithin
      cases hwithin

section String

variable {size : Nat} {digits : Text} (p : SizeProperty) (dontCare : DontCare)

theorem createFromString_largeSize (hlarge : uint32Size ≤ size) (rest : Text) :
    Throws (createFromString (decimal size ++ '\'' :: rest) p dontCare) := by
  have hsize : uint32Size = 4294967296 := rfl
  obtain ⟨c, more, hdecimal, hlow, hhigh⟩ := decimal_head (show 0 < size by omega)
  have hnext := getNextChunk_largeSize hlarge rest
  rw [hdecimal, List.cons_append] at hnext ⊢
  exact createFromString_unread (digit_range_starts hlow hhigh true).2.2 p dontCare hnext

theorem createFromString_sizedRefused (hpos : 0 < size) {body : Text}
    (hbody : ∀ c ∈ body, endsChunk c = false)
    (hvector : body = [] ∨ Throws (createFromDecString body .notFixed)) :
    Throws (createFromString (decimal size ++ '\'' :: 'd' :: body) p dontCare) := by
  by_cases hbound : size < uint32Size
  · obtain ⟨c, more, hdecimal, hlow, hhigh⟩ := decimal_head hpos
    have hnext := getNextChunk_sized true 'd' [] hpos hbound NumberBase.noConfusion hbody (by simp)
    rw [hdecimal, List.append_nil, List.cons_append] at hnext
    rw [hdecimal, List.cons_append]
    exact createFromString_refused (digit_range_starts hlow hhigh true).2.2 p dontCare hnext
      hvector
  · exact createFromString_largeSize p dontCare (Nat.le_of_not_lt hbound) _

theorem createFromString_quotedRefused {body : Text} (hbody : ∀ c ∈ body, endsChunk c = false)
    (hvector : body = [] ∨ Throws (createFromDecString body .notFixed)) :
    Throws (createFromString ('\'' :: 'd' :: body) p dontCare) := by
  have hnext := getNextChunk_quoted [] hbody (by simp)
  rw [List.append_nil] at hnext
  exact createFromString_refused (by decide) p dontCare hnext hvector

theorem createFromString_noDigit_iff (hpos : 0 < size) {tail : Text}
    (htail : ∀ c ∈ tail, decDigitValue c = none) (hends : ∀ c ∈ tail, endsChunk c = false) :
    Throws (createFromString (decimal size ++ '\'' :: 'd' :: tail) p dontCare) ∧
        Throws (createFromString ('\'' :: 'd' :: tail) p dontCare) ↔
      tail = [] ∨ trimLeft tail ≠ [] := by
  constructor
  · rintro ⟨-, hquoted⟩
    by_contra hblank
    obtain ⟨hsome, htrim⟩ := not_or.mp hblank
    have hvector : chunkVector .decimal tail dontCare = .ok (ofBits [] .notFixed) := by
      rw [← empty_eq_ofBits, chunkVector, createFromDecString, if_pos (not_not.mp htrim)]
    have hnext := getNextChunk_quoted [] hends (by simp)
    rw [List.append_nil] at hnext
    rw [createFromString_unsized (by decide) p dontCare hnext hsome hvector (by decide)] at hquoted
    exact not_throws_ok _ hquoted
  · intro hblank
    have hvector : tail = [] ∨ Throws (createFromDecString tail .notFixed) := by
      refine hblank.imp_right fun htrim => createFromDecString_noDigit htail ?_ htrim .notFixed
      intro hquote
      exact absurd (hends _ hquote) (by decide)
    exact ⟨createFromString_sizedRefused p dontCare hpos hends hvector,
      createFromString_quotedRefused p dontCare hends hvector⟩

variable (hne : digits ≠ []) (hdigits : ∀ c ∈ digits, (decDigitValue c).isSome)
include hne hdigits

theorem createFromString_sized (hpos : 0 < size) (hbound : size < uint32Size)
    (hfits : numberOf digits < uint64Size) :
    createFromString (decimal size ++ '\'' :: 'd' :: digits) p dontCare =
      .ok (ofBits (List.replicate (size - defaultBits (numberOf digits))
          ((numberOf digits).testBit (defaultBits (numberOf digits) - 1)) ++
        (numberBits (defaultBits (numberOf digits)) (numberOf digits)).drop
          (defaultBits (numberOf digits) - size)) p) := by
  obtain ⟨-, hbits, hle⟩ := defaultBits_count (numberOf digits)
  obtain ⟨c, more, hdecimal, hlow, hhigh⟩ := decimal_head hpos
  have hlength := numberBits_length (defaultBits (numberOf digits)) (numberOf digits)
  have hnext := getNextChunk_sized true 'd' [] hpos hbound NumberBase.noConfusion
    (fun c hc => (digit_plain (hdigits c hc)).2.2.2) (by simp)
  have hsize : uint32Size = 4294967296 := rfl
  rw [hdecimal, List.append_nil, List.cons_append] at hnext
  rw [hdecimal, List.cons_append, ← numberBits_head hbits]
  have hresult := createFromString_resized (digit_range_starts hlow hhigh true).2.2 p dontCare
    hnext hpos hbound hne (createFromDecString_digits hdigits hne hfits .notFixed)
    (List.ne_nil_of_length_pos (by omega)) (by omega)
  rwa [hlength] at hresult

/-- A value behind a size is right unless it is extended with ones. -/
theorem createFromString_sized_iff (hpos : 0 < size) (hfits : numberOf digits < uint64Size) :
    (Throws (createFromString (decimal size ++ '\'' :: 'd' :: digits) p dontCare) ∨
      HoldsNumber size (numberOf digits % 2 ^ size)
        (createFromString (decimal size ++ '\'' :: 'd' :: digits) p dontCare)) ↔
      uint32Size ≤ size ∨ size ≤ defaultBits (numberOf digits) ∨
        numberOf digits < 2 ^ (defaultBits (numberOf digits) - 1) := by
  by_cases hbound : size < uint32Size
  · obtain ⟨-, hbits, -⟩ := defaultBits_count (numberOf digits)
    have hvalue := defaultBits_fits hfits
    rw [createFromString_sized p dontCare hne hdigits hpos hbound hfits,
      or_iff_right (not_throws_ok _), or_iff_right (Nat.not_le_of_lt hbound), holdsNumber_ofBits,
      List.length_append, List.length_replicate, List.length_drop, numberBits_length]
    generalize hcount : defaultBits (numberOf digits) = count at hbits hvalue
    by_cases hshort : size ≤ count
    · have hnone : size - count = 0 := by omega
      rw [hnone, numberBits_drop hshort, List.replicate_zero, List.nil_append,
        unsignedValue_numberBits]
      exact iff_of_true ⟨by omega, rfl⟩ (.inl hshort)
    · have hkept : count - size = 0 := by omega
      have hwidth : size - count + count = size := by omega
      have htop : numberOf digits < 2 ^ (count - 1) ↔
          (numberOf digits).testBit (count - 1) = false := by
        constructor
        · exact Nat.testBit_lt_two_pow
        · intro htop
          apply Nat.lt_pow_two_of_testBit
          intro i hi
          by_cases hlast : i = count - 1
          · rw [hlast, htop]
          · exact Nat.testBit_lt_two_pow
              (lt_of_lt_of_le hvalue (Nat.pow_le_pow_right (by decide) (by omega)))
      have hextended := unsignedValue_extended_iff (show 0 < size - count by omega) hvalue
        ((numberOf digits).testBit (count - 1)) p
      rw [hwidth] at hextended
      rw [hkept, List.drop_zero, hextended, or_iff_right hshort, htop]
      exact and_iff_right (by omega)
  · exact iff_of_true (.inl (createFromString_largeSize p dontCare (Nat.le_of_not_lt hbound) _))
      (.inl (Nat.le_of_not_lt hbound))

theorem createFromString_quoted (hfits : numberOf digits < uint64Size) :
    HoldsNumber (defaultBits (numberOf digits)) (numberOf digits)
      (createFromString ('\'' :: 'd' :: digits) p dontCare) := by
  obtain ⟨-, -, hle⟩ := defaultBits_count (numberOf digits)
  have hsize : uint32Size = 4294967296 := rfl
  have hnext := getNextChunk_quoted [] (fun c hc => (digit_plain (hdigits c hc)).2.2.2) (by simp)
  rw [List.append_nil] at hnext
  rw [createFromString_unsized (by decide) p dontCare hnext hne
    (createFromDecString_digits hdigits hne hfits .notFixed)
    (by rw [numberBits_length]; omega)]
  exact holdsNumber_numberBits (defaultBits_fits hfits) p

/-- Digits on their own are a number, or refused for their prefix or their length. -/
theorem createFromString_bare :
    (digits.head? = some '0' ∨ uint32Size ≤ numberOf digits) ∧
        Throws (createFromString digits p dontCare) ∨
      numberOf digits < uint32Size ∧ HoldsNumber (defaultBits (numberOf digits)) (numberOf digits)
        (createFromString digits p dontCare) := by
  have hchunk := getNextChunk_bare hne hdigits
  obtain ⟨c, more, rfl⟩ := List.exists_cons_of_ne_nil hne
  have hblank : isBlank c = false := by
    obtain ⟨hspace, htab, -, -⟩ := digit_plain (hdigits c List.mem_cons_self)
    have hline : c ≠ '\n' := by
      rintro rfl
      exact absurd (hdigits '\n' List.mem_cons_self) (by decide)
    rw [← Bool.not_eq_true]
    intro hblank
    have hmem := of_decide_eq_true hblank
    simp only [List.mem_cons, List.not_mem_nil, or_false] at hmem
    exact hmem.elim hline fun h => h.elim htab hspace
  rcases hchunk with ⟨hzero, hnext⟩ | ⟨hlarge, hnext⟩ | ⟨hfits, hnext⟩
  · exact .inl ⟨.inl hzero, createFromString_refused hblank p dontCare hnext
      (.inr ⟨_, Fault.noConfusion, rfl⟩)⟩
  · exact .inl ⟨.inr hlarge, createFromString_unread hblank p dontCare hnext⟩
  · right
    have hsizes : uint32Size ≤ uint64Size := by decide
    have hvalue : numberOf (c :: more) < uint64Size := by omega
    obtain ⟨-, -, hle⟩ := defaultBits_count (numberOf (c :: more))
    have hsize : uint32Size = 4294967296 := rfl
    rw [createFromString_unsized hblank p dontCare hnext hne
      (createFromDecString_digits hdigits hne hvalue .notFixed)
      (by rw [numberBits_length]; omega)]
    exact ⟨hfits, holdsNumber_numberBits (defaultBits_fits hvalue) p⟩

theorem createFromString_laws (hpos : 0 < size) {tail : Text}
    (htail : ∀ c ∈ tail, decDigitValue c = none) (text : Text) :
    DecimalLaws (stringParser p dontCare) size digits tail text ↔
      (uint64Size ≤ numberOf digits ∨ uint32Size ≤ size ∨ size ≤ defaultBits (numberOf digits) ∨
          numberOf digits < 2 ^ (defaultBits (numberOf digits) - 1)) ∧
        ((∀ c ∈ tail, endsChunk c = false) → tail = [] ∨ trimLeft tail ≠ []) ∧
          (trimLeft text = [] ∨ ∀ base number,
            LastNumber dontCare true ((trimLeft text).dropWhile isBlank) empty base number →
              NumberWithin base number) := by
  have hsized := createFromString_sized_iff p dontCare hne hdigits hpos
  have hnone := createFromString_noDigit_iff p dontCare hpos htail
  have hbare := createFromString_bare p dontCare hne hdigits
  constructor
  · intro hlaws
    refine ⟨?_, fun hends => (hnone hends).mp (hlaws.noDigit hends),
      (stringReadsPastEnd_iff dontCare text).mp hlaws.withinText⟩
    by_cases hfits : numberOf digits < uint64Size
    · exact .inr ((hsized hfits).mp (hlaws.sized hfits))
    · exact .inl (Nat.le_of_not_lt hfits)
  · rintro ⟨hsize, hblank, hwithin⟩
    refine ⟨?_, createFromString_quoted p dontCare hne hdigits, ?_, ?_,
      fun hends => (hnone hends).mpr (hblank hends),
      (stringReadsPastEnd_iff dontCare text).mpr hwithin⟩
    · intro hfits
      exact (hsized hfits).mpr (hsize.resolve_left (Nat.not_le_of_lt hfits))
    · intro _
      exact hbare.imp_right And.right
    · intro hlarge
      have hends : ∀ c ∈ digits, endsChunk c = false :=
        fun c hc => (digit_plain (hdigits c hc)).2.2.2
      have hvector := createFromDecString_tooLarge hdigits hne hlarge .notFixed
      have hsizes : uint32Size ≤ uint64Size := by decide
      refine ⟨createFromString_sizedRefused p dontCare hpos hends (.inr hvector),
        createFromString_quotedRefused p dontCare hends (.inr hvector), ?_⟩
      rcases hbare with ⟨-, hthrows⟩ | ⟨hsmall, -⟩
      · exact hthrows
      · omega

end String

/-! ### Both -/

/-- `CreateFromDecString` is right for the sizes that 8 bits leave as they are or refuse, `CreateFromString` unless it extends a number with ones; `CreateFromDecString` needs a character that it refuses to notice missing digits, `CreateFromString` no digits or no blanks only; and neither leaves the text unless a decimal number at its end is made of zeros only, or a hexadecimal one of blanks only. -/
theorem decimalLaws_iff (p : SizeProperty) (dontCare : DontCare) {size : Nat} (hpos : 0 < size)
    {digits : Text} (hne : digits ≠ []) (hdigits : ∀ c ∈ digits, (decDigitValue c).isSome)
    {tail : Text} (htail : ∀ c ∈ tail, decDigitValue c = none) (text : Text) :
    (DecimalLaws (decStringParser p) size digits tail text ↔
      (SizeRefused size ∨ size ≤ 64 ∨ uint64Size ≤ numberOf digits) ∧
        (∃ c ∈ tail, isSeparator c = false) ∧ ReadsWithin text) ∧
    (DecimalLaws (stringParser p dontCare) size digits tail text ↔
      (uint64Size ≤ numberOf digits ∨ uint32Size ≤ size ∨ size ≤ defaultBits (numberOf digits) ∨
          numberOf digits < 2 ^ (defaultBits (numberOf digits) - 1)) ∧
        ((∀ c ∈ tail, endsChunk c = false) → tail = [] ∨ trimLeft tail ≠ []) ∧
          (trimLeft text = [] ∨ ∀ base number,
            LastNumber dontCare true ((trimLeft text).dropWhile isBlank) empty base number →
              NumberWithin base number)) :=
  ⟨createFromDecString_laws p hpos hne hdigits htail text,
    createFromString_laws p dontCare hne hdigits hpos htail text⟩

theorem decimalLaws_eight_bits :
    DecimalLaws (decStringParser .notFixed) 8 ['2', '0', '0'] ['z'] ['5'] ↔
      (SizeRefused 8 ∨ 8 ≤ 64 ∨ uint64Size ≤ numberOf ['2', '0', '0']) ∧
        (∃ c ∈ ['z'], isSeparator c = false) ∧ ReadsWithin ['5'] := by
  have hpos : 0 < 8 := by decide
  have hdigits : ∀ c ∈ ['2', '0', '0'], (decDigitValue c).isSome :=
    List.all_eq_true.mp (by decide)
  have htail : ∀ c ∈ ['z'], decDigitValue c = none := by
    intro c hc
    rw [List.mem_singleton.mp hc]
    rfl
  exact (decimalLaws_iff .notFixed .isError hpos (List.cons_ne_nil _ _) hdigits htail ['5']).1

/-- A size of 257 bits gives one bit, 2147483648 in 64 bits is extended with ones, and a hexadecimal number of one blank is read behind its end. -/
theorem not_decimalLaws :
    ¬DecimalLaws (decStringParser .notFixed) 257 ['1'] ['z'] ['5'] ∧
      ¬DecimalLaws (stringParser .notFixed .isError) 64
        ['2', '1', '4', '7', '4', '8', '3', '6', '4', '8'] ['z'] ['5'] ∧
      ¬DecimalLaws (stringParser .notFixed .isError) 8 ['5'] ['z'] ['\'', 'h', ' '] := by
  have htail : ∀ c ∈ ['z'], decDigitValue c = none := by
    intro c hc
    rw [List.mem_singleton.mp hc]
    rfl
  refine ⟨?_, ?_, ?_⟩
  · rw [createFromDecString_laws .notFixed (by decide) (List.cons_ne_nil _ _)
      (List.all_eq_true.mp (by decide)) htail]
    rintro ⟨hsize, -⟩
    revert hsize
    unfold SizeRefused
    decide
  · rw [createFromString_laws .notFixed .isError (List.cons_ne_nil _ _)
      (List.all_eq_true.mp (by decide)) (by decide) htail]
    rintro ⟨hsize, -⟩
    revert hsize
    decide
  · rw [createFromString_laws .notFixed .isError (List.cons_ne_nil _ _)
      (List.all_eq_true.mp (by decide)) (by decide) htail]
    rintro ⟨-, -, hwithin⟩
    have hinfo : extractEncodingInfo true (trimLeft ['\'', 'h', ' ']) =
        .ok (⟨.hexadecimal, false, 0⟩, [' ']) := rfl
    have hlast : LastNumber .isError true ['\'', 'h', ' '] empty .hexadecimal [' '] :=
      LastNumber.last (List.cons_ne_nil _ _) hinfo (List.forall_mem_singleton.mpr rfl)
    rcases (hwithin.resolve_left (by decide) _ _ hlast).2 rfl with hnone | ⟨c, hc, hblank⟩
    · cases hnone
    · rw [List.mem_singleton.mp hc] at hblank
      cases hblank

end BinaryVector

end Mast
