import Mast.BinaryVector.Compare
import Mast.BinaryVector.Printed

/-!
# Text forms decode to the vector they encode

The parsers read back what the printers write. `CreateFromString` splits a mixed text where a base or a size is given, reads each chunk as the bits it was printed from, and appends them.
-/

namespace Mast

open BitPacking Interleaving

namespace BinaryVector

/-! ### Sizes -/

theorem decDigitValue_digitChar {digit : Nat} (hdigit : digit < 10) :
    decDigitValue digit.digitChar = some digit := by
  interval_cases digit <;> rfl

theorem readUInt32_decimal {n : Nat} (hbound : n < uint32Size) (hpos : 0 < n) (rest : Text) :
    readUInt32 (decimal n ++ rest) 0 0 = readUInt32 rest n (decimal n).length := by
  induction n using Nat.strong_induction_on generalizing rest with
  | _ n ih =>
    unfold decimal
    by_cases hsmall : n < 10
    · have hlarge : ¬0 > (uint32Size - 1) / 10 := by decide
      have hwrap : ¬n % uint32Size < 0 := Nat.not_lt_zero _
      rw [Nat.toDigits_of_lt_base hsmall, List.singleton_append, readUInt32,
        decDigitValue_digitChar hsmall]
      simp only [if_neg hlarge, Nat.zero_mul, Nat.zero_add, if_neg hwrap, List.length_singleton]
    · have hfront := ih (n / 10) (by omega) (by omega) (by omega)
        ((n % 10).digitChar :: rest)
      have hlarge : ¬n / 10 > (uint32Size - 1) / 10 := by
        unfold uint32Size at *
        omega
      have hvalue : n / 10 * 10 + n % 10 = n := by omega
      have hwrap : ¬n % uint32Size < n / 10 * 10 := by
        rw [Nat.mod_eq_of_lt hbound]
        omega
      unfold decimal at hfront
      rw [Nat.toDigits_of_base_le (by decide) (by omega), List.append_assoc, List.singleton_append,
        hfront, readUInt32, decDigitValue_digitChar (by omega)]
      simp only [if_neg hlarge, hvalue, if_neg hwrap, List.length_append, List.length_singleton]

theorem decimal_head {n : Nat} (hpos : 0 < n) :
    ∃ c rest, decimal n = c :: rest ∧ '1' ≤ c ∧ c ≤ '9' := by
  induction n using Nat.strong_induction_on with
  | _ n ih =>
    unfold decimal
    by_cases hsmall : n < 10
    · rw [Nat.toDigits_of_lt_base hsmall]
      refine ⟨_, [], rfl, ?_⟩
      interval_cases n <;> decide
    · obtain ⟨c, rest, hdigits, hhead⟩ := ih (n / 10) (by omega) (by omega)
      rw [Nat.toDigits_of_base_le (by decide) (by omega)]
      unfold decimal at hdigits
      exact ⟨c, rest ++ [(n % 10).digitChar], by rw [hdigits, List.cons_append], hhead⟩

theorem toUInt32_decimal {n : Nat} (hbound : n < uint32Size) (hpos : 0 < n) (rest : Text) :
    toUInt32 (decimal n ++ '\'' :: rest) = .ok (n, (decimal n).length) := by
  have hread := readUInt32_decimal hbound hpos ('\'' :: rest)
  obtain ⟨c, digits, hdecimal, hlow, hhigh⟩ := decimal_head hpos
  rw [hdecimal] at hread ⊢
  have hneZero : c ≠ '0' := by
    rintro rfl
    exact absurd hlow (by decide)
  have hnePlus : c ≠ '+' := by
    rintro rfl
    exact absurd hlow (by decide)
  have hneSpace : ¬(c = ' ' ∨ c = '\t') := by
    rintro (rfl | rfl)
    · exact absurd hlow (by decide)
    · exact absurd hlow (by decide)
  have htrim : trimLeft (c :: digits ++ '\'' :: rest) = c :: digits ++ '\'' :: rest :=
    List.dropWhile_cons_of_neg (by simpa using hneSpace)
  have hzeros : (c :: digits ++ '\'' :: rest).dropWhile (fun c => decide (c = '0')) =
      c :: digits ++ '\'' :: rest :=
    List.dropWhile_cons_of_neg (by simpa using hneZero)
  have hquote : readUInt32 ('\'' :: rest) n (c :: digits).length =
      .ok (n, (c :: digits).length) := rfl
  have hnePlus' : ¬List.head? (c :: digits ++ '\'' :: rest) = some '+' := by simpa using hnePlus
  simp only [toUInt32, htrim, if_neg hnePlus', hzeros, hread, hquote]
  simp

/-! ### Chunks -/

/-- The text after a chunk once a comma and the blanks after it are skipped. -/
def afterComma (rest : Text) : Text :=
  if rest.head? = some ',' then trimLeft rest.tail else rest

theorem chunk_split {body rest : Text} (hbody : ∀ c ∈ body, endsChunk c = false)
    (hrest : ∀ c, rest.head? = some c → endsChunk c = true) :
    ((body ++ rest).takeWhile fun c => !endsChunk c) = body := by
  have hall : ∀ c ∈ body, (!endsChunk c) = true := fun c hc => by rw [hbody c hc]; rfl
  rw [List.takeWhile_append_of_pos hall]
  cases rest with
  | nil => simp
  | cons c rest => simp [hrest c rfl]

theorem getNextChunk_of_encoding {firstChunk : Bool} {text body rest : Text} {info : EncodingInfo}
    (hextract : extractEncodingInfo firstChunk (trimLeft text) = .ok (info, body ++ rest))
    (hbase : info.base ≠ .undefined) (hbody : ∀ c ∈ body, endsChunk c = false)
    (hrest : ∀ c, rest.head? = some c → endsChunk c = true) :
    getNextChunk firstChunk text = .ok (info, body, afterComma rest) := by
  simp only [getNextChunk, hextract, if_neg hbase, chunk_split hbody hrest, List.drop_left]
  rfl

theorem getNextChunk_prefixed {firstChunk : Bool} {start : Char} (letter : Char) {body : Text}
    (rest : Text) (hstart : start = '/' ∨ firstChunk = true ∧ start = '0')
    (hletter : numberBaseForValuePrefix [letter] ≠ .undefined)
    (hbody : ∀ c ∈ body, endsChunk c = false)
    (hrest : ∀ c, rest.head? = some c → endsChunk c = true) :
    getNextChunk firstChunk (start :: letter :: (body ++ rest)) =
      .ok (⟨numberBaseForValuePrefix [letter], false, 0⟩, body, afterComma rest) := by
  have hbase : numberBaseForValuePrefix (letter :: (body ++ rest)) =
      numberBaseForValuePrefix [letter] := rfl
  have htrim : trimLeft (start :: letter :: (body ++ rest)) = start :: letter :: (body ++ rest) := by
    apply List.dropWhile_cons_of_neg
    rcases hstart with rfl | ⟨-, rfl⟩ <;> decide
  refine getNextChunk_of_encoding ?_ hletter hbody hrest
  have hguard : start = '/' ∨ start = '\\' ∨ firstChunk ∧ start = '0' := by tauto
  simp only [htrim, extractEncodingInfo, if_pos hguard, hbase, if_pos hletter]
  rfl

theorem decimal_not_blank {n : Nat} (hpos : 0 < n) (text : Text) :
    trimLeft (decimal n ++ text) = decimal n ++ text := by
  obtain ⟨c, digits, hdecimal, hlow, hhigh⟩ := decimal_head hpos
  rw [hdecimal, List.cons_append]
  apply List.dropWhile_cons_of_neg
  simp only [decide_eq_true_eq]
  rintro (rfl | rfl)
  · exact absurd hlow (by decide)
  · exact absurd hlow (by decide)

theorem extractIclInfo_sized (inverted : Bool) {n : Nat} (letter : Char) (text : Text) (hpos : 0 < n)
    (hbound : n < uint32Size) (hletter : numberBaseForValuePrefix [letter] ≠ .undefined) :
    extractIclInfo inverted (decimal n ++ '\'' :: letter :: text) =
      .ok (⟨numberBaseForValuePrefix [letter], inverted, n⟩, text) := by
  have hbase : numberBaseForValuePrefix (letter :: text) = numberBaseForValuePrefix [letter] := rfl
  have hsize := toUInt32_decimal hbound hpos (letter :: text)
  have hquote : (decimal n ++ '\'' :: letter :: text)[(decimal n).length]? = some '\'' := by
    rw [List.getElem?_append_right (Nat.le_refl _), Nat.sub_self]
    rfl
  have hdrop : (decimal n ++ '\'' :: letter :: text).drop ((decimal n).length + 1) =
      letter :: text := by
    rw [List.drop_length_add_append]
    rfl
  obtain ⟨c, digits, hdecimal, hlow, hhigh⟩ := decimal_head hpos
  generalize hwhole : decimal n ++ '\'' :: letter :: text = whole at hsize hquote hdrop
  have hhead : whole = c :: (digits ++ '\'' :: letter :: text) := by
    rw [← hwhole, hdecimal, List.cons_append]
  rw [hhead] at hsize hquote hdrop ⊢
  simp only [extractIclInfo, if_pos (And.intro hlow hhigh), hsize, hquote, if_true, hdrop, hbase,
    if_pos hletter]
  rfl

theorem getNextChunk_sized (firstChunk : Bool) {n : Nat} (letter : Char) {body : Text} (rest : Text)
    (hpos : 0 < n) (hbound : n < uint32Size)
    (hletter : numberBaseForValuePrefix [letter] ≠ .undefined)
    (hbody : ∀ c ∈ body, endsChunk c = false)
    (hrest : ∀ c, rest.head? = some c → endsChunk c = true) :
    getNextChunk firstChunk (decimal n ++ '\'' :: letter :: (body ++ rest)) =
      .ok (⟨numberBaseForValuePrefix [letter], false, n⟩, body, afterComma rest) := by
  have hicl := extractIclInfo_sized false letter (body ++ rest) hpos hbound hletter
  refine getNextChunk_of_encoding ?_ hletter hbody hrest
  rw [decimal_not_blank hpos, ← hicl]
  obtain ⟨c, digits, hdecimal, hlow, hhigh⟩ := decimal_head hpos
  have hexcluded : ∀ other : Char, ¬('1' ≤ other ∧ other ≤ '9') → c ≠ other := by
    rintro other hother rfl
    exact hother ⟨hlow, hhigh⟩
  have hguard : ¬(c = '/' ∨ c = '\\' ∨ firstChunk ∧ c = '0') := by
    rintro (h | h | ⟨-, h⟩)
    · exact hexcluded '/' (by decide) h
    · exact hexcluded '\\' (by decide) h
    · exact hexcluded '0' (by decide) h
  have htilde : c ≠ '~' := hexcluded '~' (by decide)
  rw [hdecimal, List.cons_append]
  simp only [extractEncodingInfo, if_neg hguard, if_neg htilde]

theorem getNextChunk_inverted (firstChunk : Bool) {n : Nat} (letter : Char) {body : Text}
    (rest : Text) (hpos : 0 < n) (hbound : n < uint32Size)
    (hletter : numberBaseForValuePrefix [letter] ≠ .undefined)
    (hbody : ∀ c ∈ body, endsChunk c = false)
    (hrest : ∀ c, rest.head? = some c → endsChunk c = true) :
    getNextChunk firstChunk ('~' :: (decimal n ++ '\'' :: letter :: (body ++ rest))) =
      .ok (⟨numberBaseForValuePrefix [letter], true, n⟩, body, afterComma rest) := by
  have hicl := extractIclInfo_sized true letter (body ++ rest) hpos hbound hletter
  refine getNextChunk_of_encoding ?_ hletter hbody hrest
  have htrim : trimLeft ('~' :: (decimal n ++ '\'' :: letter :: (body ++ rest))) =
      '~' :: (decimal n ++ '\'' :: letter :: (body ++ rest)) :=
    List.dropWhile_cons_of_neg (by decide)
  have hguard : ¬('~' = '/' ∨ '~' = '\\' ∨ firstChunk = true ∧ '~' = '0') := by
    rintro (h | h | ⟨-, h⟩) <;> exact absurd h (by decide)
  rw [htrim, ← hicl]
  simp only [extractEncodingInfo, if_neg hguard, if_true]

theorem chunkValue_exact {info : EncodingInfo} {bitsChunk : Text} {dontCare : DontCare}
    {vector : BinaryVector} (hchunk : bitsChunk ≠ [])
    (hvector : chunkVector info.base bitsChunk dontCare = .ok vector)
    (hsize : info.bitsCount = 0 ∨ info.bitsCount = vector.usedBits) :
    chunkValue info bitsChunk dontCare = .ok ⟨vector, none, info.inverted⟩ := by
  have hexact : ¬(info.bitsCount ≠ 0 ∧ info.bitsCount ≠ vector.usedBits) := by tauto
  simp only [chunkValue, if_neg hchunk, hvector, if_neg hexact]

theorem appendChunkValues_next {firstChunk : Bool} {text bitsChunk rest : Text}
    {info : EncodingInfo} {dontCare : DontCare} {chunk : ChunkValue} {v v' : BinaryVector}
    (hnext : getNextChunk firstChunk text = .ok (info, bitsChunk, rest))
    (hvalue : chunkValue info bitsChunk dontCare = .ok chunk)
    (hrun : (appendChunkValue chunk).run v = .ok () v') (htext : text ≠ []) :
    appendChunkValues dontCare firstChunk text v = appendChunkValues dontCare false rest v' := by
  rw [appendChunkValues, if_neg htext]
  split
  · rename_i fault hfault
    rw [hnext] at hfault
    simp at hfault
  · rename_i info' bitsChunk' rest' hnext'
    rw [hnext] at hnext'
    obtain ⟨rfl, hpair⟩ := Prod.mk.inj (Except.ok.inj hnext')
    obtain ⟨rfl, rfl⟩ := Prod.mk.inj hpair
    split
    · rename_i fault hfault
      rw [hvalue] at hfault
      simp at hfault
    · rename_i chunk hvalue'
      rw [hvalue] at hvalue'
      obtain rfl := Except.ok.inj hvalue'
      rw [build, hrun]

theorem appendChunkValues_step {firstChunk : Bool} {text bitsChunk rest : Text}
    {info : EncodingInfo} {dontCare : DontCare} {l added : List Bool} {p : SizeProperty}
    (hnext : getNextChunk firstChunk text = .ok (info, bitsChunk, rest))
    (hinverted : info.inverted = false) (hchunk : bitsChunk ≠ [])
    (hvector : chunkVector info.base bitsChunk dontCare = .ok (ofBits added p))
    (hsize : info.bitsCount = 0 ∨ info.bitsCount = added.length)
    (hbound : l.length + added.length < uint32Size) (htext : text ≠ []) :
    appendChunkValues dontCare firstChunk text (ofBits l .notFixed) =
      appendChunkValues dontCare false rest (ofBits (l ++ added) .notFixed) := by
  have hvalue := chunkValue_exact hchunk hvector hsize
  have hrun := append_ofBits (l := l) (p := .notFixed)
    (ofBits_wellFormed added p).exactBytes (by decide) hbound
  rw [bits_ofBits] at hrun
  have hcall : (appendChunkValue ⟨ofBits added p, none, info.inverted⟩).run
      (ofBits l .notFixed) = (append (ofBits added p)).run (ofBits l .notFixed) := by
    rw [hinverted]
    rfl
  exact appendChunkValues_next hnext hvalue (hcall.trans hrun) htext

theorem appendChunkValues_nil (dontCare : DontCare) (firstChunk : Bool) (result : BinaryVector) :
    appendChunkValues dontCare firstChunk [] result = .ok result := by
  rw [appendChunkValues, if_pos rfl]

theorem trimLeft_of_not_blank {c : Char} (hblank : isBlank c = false) (text : Text) :
    trimLeft (c :: text) = c :: text := by
  apply List.dropWhile_cons_of_neg
  simp only [decide_eq_true_eq]
  rintro (rfl | rfl) <;> simp [isBlank] at hblank

theorem createFromString_of_chunks {c : Char} {text : Text} {l : List Bool} {p : SizeProperty}
    {dontCare : DontCare} (hblank : isBlank c = false)
    (hread : appendChunkValues dontCare true (c :: text) (ofBits [] .notFixed) =
      .ok (ofBits l .notFixed)) :
    createFromString (c :: text) p dontCare = .ok (ofBits l p) := by
  have htrim := trimLeft_of_not_blank hblank text
  have hdrop : (c :: text).dropWhile isBlank = c :: text :=
    List.dropWhile_cons_of_neg (by simp [hblank])
  have hne : c :: text ≠ [] := List.cons_ne_nil _ _
  simp only [createFromString, htrim, if_neg hne, hdrop, empty_eq_ofBits, hread]
  rfl

/-! ### Plain digits

The default separators are `_` and `:`, which neither end a chunk nor stand for bits. -/

def PlainFiller (c : Char) : Prop := c = '_' ∨ c = ':'

theorem Separators.default_filler {c : Char} (hc : Separators.default.Filler c) :
    PlainFiller c := by
  simpa [Separators.Filler, Separators.default, PlainFiller] using hc

theorem Separators.icl_filler {c : Char} (hc : Separators.icl.Filler c) : PlainFiller c := by
  left
  simpa [Separators.Filler, Separators.icl] using hc

theorem PlainFiller.ignored {c : Char} (hc : PlainFiller c) : Ignored c := by
  rcases hc with rfl | rfl <;> rfl

theorem PlainFiller.not_endsChunk {c : Char} (hc : PlainFiller c) : endsChunk c = false := by
  rcases hc with rfl | rfl <;> rfl

theorem PlainFiller.not_hexDigit {c : Char} (hc : PlainFiller c) : hexDigitValue c = none := by
  rcases hc with rfl | rfl <;> rfl

theorem hexDigit_not_endsChunk {c : Char} (hc : (hexDigitValue c).isSome) :
    endsChunk c = false := by
  by_contra hends
  have hmem := of_decide_eq_true (Bool.not_eq_false _ ▸ hends)
  simp only [List.mem_cons, List.not_mem_nil, or_false] at hmem
  rcases hmem with rfl | rfl | rfl | rfl <;> simp [hexDigitValue] at hc

theorem plain_not_endsChunk {digits body : Text} (hbody : Interleaved PlainFiller digits body)
    (hdigits : ∀ c ∈ digits, (hexDigitValue c).isSome) : ∀ c ∈ body, endsChunk c = false :=
  fun _ hc => (hbody.mem hc).elim (fun hmem => hexDigit_not_endsChunk (hdigits _ hmem))
    PlainFiller.not_endsChunk

theorem binaryDigits_hexDigit {l : List Bool} : ∀ c ∈ binaryDigits l, (hexDigitValue c).isSome := by
  intro c hc
  rcases mem_binaryDigits hc with rfl | rfl <;> rfl

/-! ### Printed bodies -/

theorem dataAsBinaryString_body {v : BinaryVector} (hv : v.ExactBytes) (s : Separators)
    (prefixWith0b : Bool) :
    ∃ body, v.dataAsBinaryString s prefixWith0b =
        (if prefixWith0b then "0b".toList else []) ++ body ∧
      Interleaved s.Filler (binaryDigits v.bits) body :=
  Printer.binaryBytes_writes s hv _

theorem dataAsHexString_body {v : BinaryVector} (hv : v.ExactBytes) (s : Separators)
    (prefixWith0x : Bool) :
    ∃ body, v.dataAsHexString s prefixWith0x =
        (if prefixWith0x then "0x".toList else []) ++ body ∧
      Interleaved s.Filler (hexDigits v.bits) body :=
  Printer.hexBytes_writes s hv _

theorem hexDigits_ne_nil {l : List Bool} (hl : l ≠ []) : hexDigits l ≠ [] := by
  cases l using hexDigits.induct with
  | case5 => exact absurd rfl hl
  | _ => simp [hexDigits]

theorem hexDigits_dropLast {l : List Bool} (hincomplete : l.length % 4 ≠ 0) :
    (hexDigits l).dropLast = hexDigits (l.take (4 * (l.length / 4))) := by
  induction l using hexDigits.induct with
  | case1 a b c d rest ih =>
    have hlength : (a :: b :: c :: d :: rest).length = rest.length + 4 := rfl
    rw [hlength] at hincomplete ⊢
    have hrest : rest.length % 4 ≠ 0 := by omega
    have hne : hexDigits rest ≠ [] := by
      apply hexDigits_ne_nil
      rintro rfl
      simp at hrest
    have hcount : 4 * ((rest.length + 4) / 4) = 4 * (rest.length / 4) + 4 := by omega
    rw [hcount, hexDigits, List.dropLast_cons_of_ne_nil hne, ih hrest]
    rfl
  | case5 => simp at hincomplete
  | _ => simp [hexDigits]

theorem dataAsHexString_dropLast {v : BinaryVector} (hv : v.ExactBytes)
    (hincomplete : v.usedBits % 4 ≠ 0) {s : Separators}
    (hfiller : ∀ c, s.Filler c → hexDigitValue c = none) (prefixWith0x : Bool) :
    ∃ body, (v.dataAsHexString s prefixWith0x).dropLast =
        (if prefixWith0x then "0x".toList else []) ++ body ∧
      Interleaved s.Filler (hexDigits (v.bits.take (4 * (v.usedBits / 4)))) body := by
  obtain ⟨body, htext, hbody⟩ := dataAsHexString_body hv s prefixWith0x
  have hlength := hv.bits_length
  have hne : v.data ≠ [] := by
    intro hempty
    rw [ExactBytes, hempty, bytesFor, List.length_nil] at hv
    omega
  have hbodyNe : body ≠ [] := by
    rintro rfl
    have hnil : hexDigits v.bits ≠ [] := by
      apply hexDigits_ne_nil
      rw [← List.length_pos_iff]
      omega
    cases hdigits : hexDigits v.bits with
    | nil => exact hnil hdigits
    | cons c rest =>
      rw [hdigits] at hbody
      cases hbody
  obtain ⟨front, last, rfl⟩ := (List.eq_nil_or_concat' body).resolve_left hbodyNe
  obtain ⟨digit, hdigit, hhex⟩ : Printer.EndsWithDigit (Printer.hexBytes s v.data v.usedBits
      ⟨0, 0, if prefixWith0x then "0x".toList else []⟩) :=
    Printer.hexBytes_endsWithDigit s (.inl hne)
  have hlast : last = digit := by
    change (v.dataAsHexString s prefixWith0x).getLast? = some digit at hdigit
    rw [htext, ← List.append_assoc, List.getLast?_concat] at hdigit
    exact Option.some.inj hdigit
  have hnotFiller : ¬s.Filler last := by
    intro hfill
    rw [hlast] at hfill
    simp [hfiller digit hfill] at hhex
  refine ⟨front, ?_, ?_⟩
  · rw [htext, ← List.append_assoc, List.dropLast_concat]
  · have hfront := hbody.dropLast hnotFiller
    rwa [hexDigits_dropLast (by rwa [hlength]), hlength] at hfront

/-- The separator that is left before a removed digit can be removed too. -/
theorem trailing_separator {start body digits : Text} {Filler : Char → Prop}
    (hstart : start.getLast? ≠ some '_') (hbody : Interleaved Filler digits body)
    (hdigits : '_' ∉ digits) :
    ∃ body', (if (start ++ body).getLast? = some '_' then (start ++ body).dropLast
        else start ++ body) = start ++ body' ∧ Interleaved Filler digits body' := by
  by_cases hlast : (start ++ body).getLast? = some '_'
  · rw [if_pos hlast]
    rcases List.eq_nil_or_concat' body with rfl | ⟨front, last, rfl⟩
    · rw [List.append_nil] at hlast
      exact absurd hlast hstart
    · rw [← List.append_assoc, List.getLast?_concat] at hlast
      obtain rfl := Option.some.inj hlast
      exact ⟨front, by rw [← List.append_assoc, List.dropLast_concat], hbody.dropLast_filler hdigits⟩
  · exact ⟨body, if_neg hlast, hbody⟩

/-- The bits of an incomplete last nibble, whichever half of the last byte it is in. -/
private theorem lastNibble_digits (byte : Byte) {count : Nat} (hcount : count < 8)
    (hincomplete : count % 4 ≠ 0) :
    ((binaryNibble ((byte >>> (if count < 4 then 8 - count % 4 else 4 - count % 4)) &&& 0x0F)).drop
        (4 - count % 4)).take (count % 4) =
      binaryDigits (((byteBits byte).take count).drop (4 * (count / 4))) := by
  revert byte
  interval_cases count <;> first
    | exact absurd rfl hincomplete
    | decide +kernel

theorem lastQuadBits_eq {v : BinaryVector} (hv : v.ExactBytes) (hincomplete : v.usedBits % 4 ≠ 0) :
    v.lastQuadBits = binaryDigits (v.bits.drop (4 * (v.usedBits / 4))) := by
  obtain ⟨front, last, hdata, hfront, hbits⟩ := hv.exists_last (by omega)
  generalize hcount : v.usedBits % 8 = count at hfront hbits
  have hlast := lastNibble_digits last (show count < 8 by omega) (by omega)
  have hquad : v.usedBits % 4 = count % 4 := by omega
  have hdrop : 4 * (v.usedBits / 4) = (unpack front).length + 4 * (count / 4) := by
    rw [unpack_length]
    omega
  rw [lastQuadBits, hdata, List.getLast?_concat, hcount, hquad, hbits, hdrop,
    List.drop_length_add_append]
  exact hlast

/-! ### Decoded chunks -/

theorem chunkVector_binary {l : List Bool} {body : Text} {dontCare : DontCare}
    (hbody : Interleaved PlainFiller (binaryDigits l) body) (hbound : l.length < uint32Size) :
    chunkVector .binary body dontCare = .ok (ofBits l .notFixed) := by
  have hread := createFromBinaryString_interleaved (hbody.mono fun _ => PlainFiller.ignored)
    (.inl rfl) .notFixed dontCare
  rw [Nat.mod_eq_of_lt hbound] at hread
  exact hread

theorem chunkVector_hexadecimal {l : List Bool} {body : Text} (dontCare : DontCare)
    (hbody : Interleaved PlainFiller (hexDigits l) body) (haligned : l.length % 4 = 0)
    (hbound : l.length < uint32Size) :
    chunkVector .hexadecimal body dontCare = .ok (ofBits l .notFixed) := by
  have hread := createFromHexString_interleaved (hbody.mono fun _ => PlainFiller.ignored)
    .notFixed dontCare
  have hnone : nibblePadding l.length = [] := by
    rw [nibblePadding, haligned]
    rfl
  rw [hnone, List.append_nil, Nat.mod_eq_of_lt hbound] at hread
  exact hread

theorem Interleaved.ne_nil {digits body : Text} (hbody : Interleaved PlainFiller digits body)
    (hdigits : digits ≠ []) : body ≠ [] := by
  rintro rfl
  cases hbody
  exact hdigits rfl

theorem appendChunkValues_binary (firstChunk : Bool) {start : Char} (l : List Bool)
    {l' : List Bool} {body : Text} (dontCare : DontCare)
    (hstart : start = '/' ∨ firstChunk = true ∧ start = '0')
    (hbody : Interleaved PlainFiller (binaryDigits l') body) (hl' : l' ≠ [])
    (hbound : l.length + l'.length < uint32Size) :
    appendChunkValues dontCare firstChunk (start :: 'b' :: body) (ofBits l .notFixed) =
      .ok (ofBits (l ++ l') .notFixed) := by
  have hnext := getNextChunk_prefixed 'b' [] hstart (by decide)
    (plain_not_endsChunk hbody binaryDigits_hexDigit) (by simp)
  rw [List.append_nil] at hnext
  have hdigits : binaryDigits l' ≠ [] := by simpa [binaryDigits] using hl'
  rw [appendChunkValues_step hnext rfl (Interleaved.ne_nil hbody hdigits)
    (chunkVector_binary hbody (by omega)) (.inl rfl) hbound (List.cons_ne_nil _ _)]
  exact appendChunkValues_nil _ _ _

theorem appendChunkValues_sizedBinary (firstChunk : Bool) (l : List Bool) {l' : List Bool}
    {body : Text} (dontCare : DontCare) (hbody : Interleaved PlainFiller (binaryDigits l') body) (hl' : l' ≠ [])
    (hbound : l.length + l'.length < uint32Size) :
    appendChunkValues dontCare firstChunk (decimal l'.length ++ '\'' :: 'b' :: body)
        (ofBits l .notFixed) = .ok (ofBits (l ++ l') .notFixed) := by
  have hnext := getNextChunk_sized firstChunk 'b' [] (List.length_pos_iff.mpr hl') (by omega) (by decide)
    (plain_not_endsChunk hbody binaryDigits_hexDigit) (by simp)
  rw [List.append_nil] at hnext
  have hdigits : binaryDigits l' ≠ [] := by simpa [binaryDigits] using hl'
  rw [appendChunkValues_step hnext rfl (Interleaved.ne_nil hbody hdigits)
    (chunkVector_binary hbody (by omega)) (.inr rfl) hbound (by simp)]
  exact appendChunkValues_nil _ _ _

theorem appendChunkValues_hexadecimal {l : List Bool} {body : Text} (rest : Text)
    (dontCare : DontCare) (hbody : Interleaved PlainFiller (hexDigits l) body) (hl : l ≠ [])
    (haligned : l.length % 4 = 0)
    (hbound : l.length < uint32Size) (hrest : ∀ c, rest.head? = some c → endsChunk c = true) :
    appendChunkValues dontCare true ('0' :: 'x' :: (body ++ rest)) (ofBits [] .notFixed) =
        appendChunkValues dontCare false (afterComma rest) (ofBits l .notFixed) ∧
      appendChunkValues dontCare true (decimal l.length ++ '\'' :: 'h' :: (body ++ rest))
        (ofBits [] .notFixed) =
        appendChunkValues dontCare false (afterComma rest) (ofBits l .notFixed) := by
  have hends := plain_not_endsChunk hbody fun c hc => mem_hexDigits hc
  have hvector := chunkVector_hexadecimal dontCare hbody haligned hbound
  have hne := Interleaved.ne_nil hbody (hexDigits_ne_nil hl)
  have hsum : ([] : List Bool).length + l.length < uint32Size := by
    rwa [List.length_nil, Nat.zero_add]
  constructor
  · exact appendChunkValues_step
      (getNextChunk_prefixed 'x' rest (.inr ⟨rfl, rfl⟩) (by decide) hends hrest) rfl hne hvector
      (.inl rfl) hsum (List.cons_ne_nil _ _)
  · exact appendChunkValues_step
      (getNextChunk_sized true 'h' rest (List.length_pos_iff.mpr hl) hbound (by decide) hends hrest)
      rfl hne hvector (.inr rfl) hsum (by simp)

/-! ### Round trips -/

section

variable {v : BinaryVector} (hv : v.Stored) (p : SizeProperty) (dontCare : DontCare)

include hv

theorem bits_length_lt : v.bits.length < uint32Size := by
  rw [hv.exactBytes.bits_length]
  exact hv.usedBits_lt

theorem binary_roundTrip {s : Separators} (hs : ∀ c, s.Filler c → Ignored c) (prefixWith0b : Bool) :
    createFromBinaryString (v.dataAsBinaryString s prefixWith0b) p dontCare =
      .ok (ofBits v.bits p) := by
  obtain ⟨body, htext, hbody⟩ := dataAsBinaryString_body hv.exactBytes s prefixWith0b
  have hstart : v.dataAsBinaryString s prefixWith0b = body ∨
      v.dataAsBinaryString s prefixWith0b = '0' :: 'b' :: body := by
    rw [htext]
    cases prefixWith0b
    · exact .inl rfl
    · exact .inr rfl
  have hread := createFromBinaryString_interleaved (hbody.mono hs) hstart p dontCare
  rwa [Nat.mod_eq_of_lt (bits_length_lt hv)] at hread

omit hv in
private theorem not_blank_of_decimal {c : Char} (hlow : '1' ≤ c) : isBlank c = false := by
  by_contra hblank
  have hmem := of_decide_eq_true (Bool.not_eq_false _ ▸ hblank)
  simp only [List.mem_cons, List.not_mem_nil, or_false] at hmem
  rcases hmem with rfl | rfl | rfl <;> exact absurd hlow (by decide)

theorem iclBinary_roundTrip (hpos : 0 < v.usedBits) :
    createFromString v.dataAsICLBinaryString p dontCare = .ok (ofBits v.bits p) := by
  obtain ⟨body, htext, hbody⟩ := dataAsBinaryString_body hv.exactBytes .icl false
  have hlength := hv.exactBytes.bits_length
  obtain ⟨c, digits, hdecimal, hlow, hhigh⟩ := decimal_head hpos
  have hread := appendChunkValues_sizedBinary true [] dontCare
    (hbody.mono fun _ => Separators.icl_filler)
    (by rw [← List.length_pos_iff, hlength]; exact hpos)
    (by rw [List.length_nil, Nat.zero_add]; exact bits_length_lt hv)
  rw [hlength, hdecimal] at hread
  rw [dataAsICLBinaryString, htext, hdecimal, List.append_assoc, List.cons_append]
  exact createFromString_of_chunks (not_blank_of_decimal hlow) hread

omit hv in
theorem wholeNibbles_split (hexact : v.ExactBytes) :
    (v.bits.take (4 * (v.usedBits / 4))).length = 4 * (v.usedBits / 4) ∧
      (v.bits.drop (4 * (v.usedBits / 4))).length = v.usedBits % 4 := by
  rw [List.length_take, List.length_drop, hexact.bits_length]
  omega

/-- A hexadecimal chunk of the whole nibbles and a binary one of the other bits. -/
theorem mixed_chunks {frontBody : Text} (hincomplete : v.usedBits % 4 ≠ 0) (hlarge : 4 ≤ v.usedBits)
    (hbody : Interleaved PlainFiller (hexDigits (v.bits.take (4 * (v.usedBits / 4)))) frontBody) :
    appendChunkValues dontCare true ('0' :: 'x' :: (frontBody ++ '/' :: 'b' :: v.lastQuadBits))
        (ofBits [] .notFixed) = .ok (ofBits v.bits .notFixed) ∧
      appendChunkValues dontCare true (decimal (4 * (v.usedBits / 4)) ++ '\'' :: 'h' ::
        (frontBody ++ ',' :: ' ' :: (decimal (v.usedBits % 4) ++ '\'' :: 'b' :: v.lastQuadBits)))
        (ofBits [] .notFixed) = .ok (ofBits v.bits .notFixed) := by
  obtain ⟨hfront, hback⟩ := wholeNibbles_split hv.exactBytes
  have hbound := hv.usedBits_lt
  have hfrontNe : v.bits.take (4 * (v.usedBits / 4)) ≠ [] := by
    rw [← List.length_pos_iff]
    omega
  have hbackNe : v.bits.drop (4 * (v.usedBits / 4)) ≠ [] := by
    rw [← List.length_pos_iff]
    omega
  have hquad : Interleaved PlainFiller (binaryDigits (v.bits.drop (4 * (v.usedBits / 4))))
      v.lastQuadBits := by
    rw [lastQuadBits_eq hv.exactBytes hincomplete]
    exact Interleaved.refl _
  have hsum : (v.bits.take (4 * (v.usedBits / 4))).length +
      (v.bits.drop (4 * (v.usedBits / 4))).length < uint32Size := by omega
  constructor
  · have hnibbles := appendChunkValues_hexadecimal ('/' :: 'b' :: v.lastQuadBits) dontCare hbody
      hfrontNe (by omega) (by omega) (by simp [endsChunk])
    have hbits := appendChunkValues_binary false _ dontCare (.inl rfl) hquad hbackNe hsum
    rw [List.take_append_drop] at hbits
    exact hnibbles.1.trans hbits
  · have hnibbles := appendChunkValues_hexadecimal
      (',' :: ' ' :: (decimal (v.usedBits % 4) ++ '\'' :: 'b' :: v.lastQuadBits)) dontCare hbody
      hfrontNe (by omega) (by omega) (by simp [endsChunk])
    have hbits := appendChunkValues_sizedBinary false _ dontCare hquad hbackNe hsum
    obtain ⟨c, digits, hdecimal, hlow, -⟩ := decimal_head (show 0 < v.usedBits % 4 by omega)
    have htrim : afterComma (',' :: ' ' :: (decimal (v.usedBits % 4) ++
        '\'' :: 'b' :: v.lastQuadBits)) =
        decimal (v.usedBits % 4) ++ '\'' :: 'b' :: v.lastQuadBits := by
      rw [hdecimal]
      exact trimLeft_of_not_blank (not_blank_of_decimal hlow) _
    rw [List.take_append_drop, hback] at hbits
    rw [hfront] at hnibbles
    rw [htrim] at hnibbles
    exact hnibbles.2.trans hbits

theorem mix_roundTrip {hexStyleThreshold : Nat} (hthreshold : 4 ≤ hexStyleThreshold) :
    ∃ q, createFromString (v.dataAsMixString hexStyleThreshold .default) p dontCare =
      .ok (ofBits v.bits q) := by
  have hlength := hv.exactBytes.bits_length
  have hbound := bits_length_lt hv
  unfold dataAsMixString
  by_cases hnone : v.usedBits = 0
  · have hnil : v.bits = [] := List.length_eq_zero_iff.mp (by omega)
    rw [if_pos hnone, hnil]
    exact ⟨.notFixed, rfl⟩
  · refine ⟨p, ?_⟩
    rw [if_neg hnone]
    by_cases hsmall : v.usedBits < hexStyleThreshold
    · obtain ⟨body, htext, hbody⟩ := dataAsBinaryString_body hv.exactBytes .default true
      have hread := appendChunkValues_binary true [] dontCare
        (.inr ⟨rfl, rfl⟩) (hbody.mono fun _ => Separators.default_filler)
        (by rw [← List.length_pos_iff]; omega) (by rw [List.length_nil]; omega)
      rw [if_pos hsmall, htext]
      exact createFromString_of_chunks rfl hread
    · rw [if_neg hsmall]
      by_cases haligned : v.usedBits % 4 = 0
      · obtain ⟨body, htext, hbody⟩ := dataAsHexString_body hv.exactBytes .default true
        have hread := (appendChunkValues_hexadecimal [] dontCare
          (hbody.mono fun _ => Separators.default_filler) (by rw [← List.length_pos_iff]; omega)
          (by rwa [hlength]) hbound (by simp)).1
        rw [List.append_nil] at hread
        simp only [if_neg (not_not.mpr haligned)]
        rw [htext]
        exact createFromString_of_chunks rfl (hread.trans (appendChunkValues_nil _ _ _))
      · obtain ⟨body, htext, hbody⟩ := dataAsHexString_dropLast hv.exactBytes haligned
          (fun c hc => (Separators.default_filler hc).not_hexDigit) true
        have hread := (mixed_chunks hv dontCare haligned (by omega)
          (hbody.mono fun _ => Separators.default_filler)).1
        simp only [if_pos haligned]
        rw [htext, List.append_assoc]
        exact createFromString_of_chunks rfl hread

theorem iclHex_wholeNibbles (hpos : 0 < v.usedBits) (start : Text) :
    ∃ body, (if v.usedBits % 4 ≠ 0 then (start ++ v.dataAsHexString .icl false).dropLast
        else start ++ v.dataAsHexString .icl false) = start ++ body ∧
      Interleaved Separators.icl.Filler (hexDigits (v.bits.take (4 * (v.usedBits / 4)))) body := by
  have hlength := hv.exactBytes.bits_length
  by_cases hincomplete : v.usedBits % 4 ≠ 0
  · obtain ⟨body, htext, hbody⟩ := dataAsHexString_dropLast hv.exactBytes hincomplete
      (fun c hc => (Separators.icl_filler hc).not_hexDigit) false
    obtain ⟨body', htext', hbody'⟩ := dataAsHexString_body hv.exactBytes .icl false
    have hne : v.dataAsHexString .icl false ≠ [] := by
      rw [htext']
      apply Interleaved.ne_nil (hbody'.mono fun _ => Separators.icl_filler)
      apply hexDigits_ne_nil
      rw [← List.length_pos_iff]
      omega
    refine ⟨body, ?_, hbody⟩
    rw [if_pos hincomplete, List.dropLast_append_of_ne_nil hne, htext]
    rfl
  · obtain ⟨body, htext, hbody⟩ := dataAsHexString_body hv.exactBytes .icl false
    have hall : 4 * (v.usedBits / 4) = v.bits.length := by omega
    refine ⟨body, ?_, ?_⟩
    · rw [if_neg hincomplete, htext]
      rfl
    · rwa [hall, List.take_length]

theorem iclMix_roundTrip (hexStyleThreshold : Nat) :
    ∃ q, createFromString (v.dataAsICLMixString hexStyleThreshold) p dontCare =
      .ok (ofBits v.bits q) := by
  have hlength := hv.exactBytes.bits_length
  have hbound := hv.usedBits_lt
  unfold dataAsICLMixString
  by_cases hnone : v.usedBits = 0
  · have hnil : v.bits = [] := List.length_eq_zero_iff.mp (by omega)
    rw [if_pos hnone, hnil]
    exact ⟨.notFixed, rfl⟩
  · refine ⟨p, ?_⟩
    rw [if_neg hnone]
    by_cases hsmall : v.usedBits < max hexStyleThreshold 4
    · rw [if_pos hsmall]
      exact iclBinary_roundTrip hv p dontCare (by omega)
    · have hlarge : 4 ≤ v.usedBits := by omega
      obtain ⟨c, digits, hdecimal, hlow, -⟩ := decimal_head (show 0 < v.usedBits / 4 * 4 by omega)
      have hblank := not_blank_of_decimal hlow
      have hstart : (decimal (v.usedBits / 4 * 4) ++ "'h".toList).getLast? ≠ some '_' := by
        rw [List.getLast?_append_of_ne_nil _ (by decide)]
        decide
      have hnoSeparator : ∀ l, '_' ∉ hexDigits l := by
        intro l hmem
        simpa [hexDigitValue] using mem_hexDigits hmem
      obtain ⟨body, htext, hbody⟩ := iclHex_wholeNibbles hv (by omega)
        (decimal (v.usedBits / 4 * 4) ++ "'h".toList)
      obtain ⟨body', htext', hbody'⟩ := trailing_separator hstart hbody (hnoSeparator _)
      have hplain := hbody'.mono fun _ => Separators.icl_filler
      simp only [if_neg hsmall, htext, htext']
      by_cases haligned : v.usedBits % 4 = 0
      · have hall : 4 * (v.usedBits / 4) = v.bits.length := by omega
        rw [hall, List.take_length] at hplain
        have hread := (appendChunkValues_hexadecimal [] dontCare hplain
          (by rw [← List.length_pos_iff]; omega) (by rwa [hlength]) (by omega) (by simp)).2
        rw [← hall, Nat.mul_comm 4, hdecimal, List.append_nil] at hread
        rw [if_neg (not_not.mpr haligned), hdecimal, List.append_assoc]
        exact createFromString_of_chunks hblank (hread.trans (appendChunkValues_nil _ _ _))
      · have hread := (mixed_chunks hv dontCare haligned hlarge hplain).2
        rw [Nat.mul_comm 4, hdecimal] at hread
        rw [if_pos haligned, hdecimal]
        simp only [List.append_assoc, List.cons_append]
        exact createFromString_of_chunks hblank hread

theorem hex_roundTrip :
    createFromHexString (v.dataAsHexString .default false) p dontCare =
      .ok ⟨pack (v.bits ++ nibblePadding v.usedBits),
        (v.usedBits + (4 - v.usedBits % 4) % 4) % uint32Size, p⟩ := by
  obtain ⟨body, htext, hbody⟩ := dataAsHexString_body hv.exactBytes .default false
  have hread := createFromHexString_interleaved
    (hbody.mono fun _ hc => (Separators.default_filler hc).ignored) p dontCare
  have hpadding : (nibblePadding v.usedBits).length = (4 - v.usedBits % 4) % 4 :=
    List.length_replicate
  rw [List.length_append, hv.exactBytes.bits_length, hpadding] at hread
  rw [htext]
  exact hread

end

/-- A text that was read as a vector equal to `v`. -/
def DecodesTo (read : Except Fault BinaryVector) (v : BinaryVector) : Prop :=
  ∃ w, read = .ok w ∧ w.compareEqualTo v

theorem decodesTo_bits {v : BinaryVector} (hv : v.Stored) {read : Except Fault BinaryVector}
    {p : SizeProperty} (hread : read = .ok (ofBits v.bits p)) : DecodesTo read v := by
  refine ⟨_, hread, (compareEqualTo_iff (ofBits_wellFormed _ _).exactBytes hv.exactBytes).mpr ?_⟩
  exact bits_ofBits _ _

/-- What the text forms of a vector are read back as. -/
structure TextFormsDecode (v : BinaryVector) (p : SizeProperty) (dontCare : DontCare) : Prop where
  binary (s : Separators) (prefixWith0b : Bool) :
    (∀ c ∈ s.quad ++ s.octo ++ s.eol, Ignored c) →
      DecodesTo (createFromBinaryString (v.dataAsBinaryString s prefixWith0b) p dontCare) v
  mix (hexStyleThreshold : Nat) : 4 ≤ hexStyleThreshold →
    DecodesTo (createFromString (v.dataAsMixString hexStyleThreshold .default) p dontCare) v
  iclMix (hexStyleThreshold : Nat) :
    DecodesTo (createFromString (v.dataAsICLMixString hexStyleThreshold) p dontCare) v
  iclBinary : v.usedBits ≠ 0 → DecodesTo (createFromString v.dataAsICLBinaryString p dontCare) v
  -- The bits up to the end of the last nibble still have to be counted by a `uint32_t`.
  hexadecimal : v.usedBits ≠ 0 → v.usedBits ≤ uint32Size - 4 →
    createFromHexString (v.dataAsHexString .default false) p dontCare =
      .ok (ofBits (v.bits ++ List.replicate ((4 - v.usedBits % 4) % 4) false) p)

theorem textForms_decode {v : BinaryVector} (hv : v.Stored) (p : SizeProperty)
    (dontCare : DontCare) : v.TextFormsDecode p dontCare where
  binary s prefixWith0b hs := by
    apply decodesTo_bits hv (binary_roundTrip hv p dontCare ?_ prefixWith0b)
    simp only [List.mem_append] at hs
    rintro c (hquad | hocto | ⟨-, heol | rfl⟩)
    · exact hs c (.inl (.inl hquad))
    · exact hs c (.inl (.inr hocto))
    · exact hs c (.inr heol)
    · rfl
  mix hexStyleThreshold hthreshold := by
    obtain ⟨q, hread⟩ := mix_roundTrip hv p dontCare hthreshold
    exact decodesTo_bits hv hread
  iclMix hexStyleThreshold := by
    obtain ⟨q, hread⟩ := iclMix_roundTrip hv p dontCare hexStyleThreshold
    exact decodesTo_bits hv hread
  iclBinary hne := decodesTo_bits hv (iclBinary_roundTrip hv p dontCare (by omega))
  hexadecimal _ hbound := by
    have hcount : v.usedBits + (4 - v.usedBits % 4) % 4 < uint32Size := by
      unfold uint32Size at *
      omega
    have hpadded : (v.bits ++ List.replicate ((4 - v.usedBits % 4) % 4) false).length =
        v.usedBits + (4 - v.usedBits % 4) % 4 := by
      rw [List.length_append, hv.exactBytes.bits_length, List.length_replicate]
    rw [hex_roundTrip hv, Nat.mod_eq_of_lt hcount, ofBits, hpadded]
    rfl

/-- Ten bits, where the last two follow two hexadecimal digits. -/
theorem textForms_decode_ten : TextFormsDecode ⟨[0xA5, 0xC0], 10, .notFixed⟩ .fixed .isZero :=
  textForms_decode ⟨by decide, by decide⟩ .fixed .isZero

/-- The padded bits of a vector of the greatest length are too many to be counted. -/
theorem hex_wraps {v : BinaryVector} (hv : v.Stored) (hlast : v.usedBits = uint32Size - 1)
    (p : SizeProperty) (dontCare : DontCare) :
    createFromHexString (v.dataAsHexString .default false) p dontCare ≠
      .ok (ofBits (v.bits ++ List.replicate ((4 - v.usedBits % 4) % 4) false) p) := by
  intro hread
  rw [hex_roundTrip hv] at hread
  have hcount := congrArg BinaryVector.usedBits (Except.ok.inj hread)
  change (v.usedBits + (4 - v.usedBits % 4) % 4) % uint32Size = List.length _ at hcount
  have hwrap : (v.usedBits + (4 - v.usedBits % 4) % 4) % uint32Size = 0 := by
    rw [hlast]
    rfl
  have hpos : 0 < v.usedBits := by
    rw [hlast]
    decide
  rw [hwrap, List.length_append, hv.exactBytes.bits_length] at hcount
  omega

theorem hexadecimal_not_padded : ¬∀ v : BinaryVector, v.Stored → v.usedBits ≠ 0 →
    createFromHexString (v.dataAsHexString .default false) .notFixed .isZero =
      .ok (ofBits (v.bits ++ List.replicate ((4 - v.usedBits % 4) % 4) false) .notFixed) := by
  intro hpadded
  have hlength : (ofBits (List.replicate (uint32Size - 1) false) .notFixed).usedBits =
      uint32Size - 1 := List.length_replicate
  have hstored : (ofBits (List.replicate (uint32Size - 1) false) .notFixed).Stored :=
    ⟨(ofBits_wellFormed _ _).exactBytes, by rw [hlength]; decide⟩
  refine hex_wraps hstored hlength .notFixed .isZero (hpadded _ hstored ?_)
  rw [hlength]
  decide

end BinaryVector

end Mast
