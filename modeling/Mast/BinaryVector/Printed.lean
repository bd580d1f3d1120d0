import Mast.Lib.Interleaved
import Mast.BinaryVector.TextBits

/-!
# Printed bits

What the printing loops write, and what the parsing loops read from such a text. A printed text is its digits interleaved with characters of the separators; where the parsers ignore these characters they read the digits alone.
-/

namespace Mast

open BitPacking Interleaving

namespace BinaryVector

/-- The characters a printer can put between digits. -/
def Separators.Filler (s : Separators) (c : Char) : Prop :=
  c ∈ s.quad ∨ c ∈ s.octo ∨ s.bytesPerLine ≠ 0 ∧ (c ∈ s.eol ∨ c = '\n')

def binaryDigits (l : List Bool) : Text := l.map fun bit => if bit then '1' else '0'

def hexDigit (a b c d : Bool) : Char :=
  hexNibble (byteOfBits [false, false, false, false, a, b, c, d])

/-- The hexadecimal digits of bits; the last nibble is completed with zeros. -/
def hexDigits : List Bool → Text
  | a :: b :: c :: d :: rest => hexDigit a b c d :: hexDigits rest
  | [a, b, c] => [hexDigit a b c false]
  | [a, b] => [hexDigit a b false false]
  | [a] => [hexDigit a false false false]
  | [] => []

/-! ### Writing -/

namespace Printer

/-- From one state to another a printer has written the digits, with filler between them. -/
def Writes (s : Separators) (before after : Printer) (digits : Text) : Prop :=
  ∃ body, after.text = before.text ++ body ∧ Interleaved s.Filler digits body

theorem Writes.refl (s : Separators) (printer : Printer) : Writes s printer printer [] :=
  ⟨[], (List.append_nil _).symm, .nil⟩

theorem Writes.trans {s : Separators} {first second third : Printer} {digits digits' : Text}
    (h : Writes s first second digits) (h' : Writes s second third digits') :
    Writes s first third (digits ++ digits') := by
  obtain ⟨body, htext, hbody⟩ := h
  obtain ⟨body', htext', hbody'⟩ := h'
  exact ⟨body ++ body', by rw [htext', htext, List.append_assoc], hbody.append hbody'⟩

theorem Writes.of_text {s : Separators} {before after : Printer} {digits : Text}
    (separator : Text) (hseparator : ∀ c ∈ separator, s.Filler c)
    (htext : after.text = before.text ++ separator ++ digits) : Writes s before after digits :=
  ⟨separator ++ digits, by rw [htext, List.append_assoc],
    (Interleaved.of_filler hseparator).append (.refl digits)⟩

theorem appendBinaryNibble_writes (s : Separators) (printer : Printer) (nibble : Text) :
    Writes s printer (printer.appendBinaryNibble s nibble) nibble := by
  unfold appendBinaryNibble
  split_ifs with hquad hocto heol
  · exact .of_text s.quad (fun c hc => .inl hc) rfl
  · refine .of_text (s.eol ++ ['\n']) (fun c hc => .inr (.inr ⟨by omega, ?_⟩)) ?_
    · simpa using hc
    · simp only [List.append_assoc]
  · exact .of_text s.octo (fun c hc => .inr (.inl hc)) rfl
  · exact .of_text [] (fun c hc => absurd hc List.not_mem_nil) (by simp)

theorem appendHexNibble_writes (s : Separators) (printer : Printer) (nibble : Char) :
    Writes s printer (printer.appendHexNibble s nibble) [nibble] := by
  have hplain : ∀ {after : Printer}, after.text = printer.text ++ [nibble] →
      Writes s printer after [nibble] := fun htext =>
    .of_text [] (fun c hc => absurd hc List.not_mem_nil) (by simpa using htext)
  unfold appendHexNibble
  split_ifs with hbyte heol hquad hocto
  · refine .of_text (s.eol ++ ['\n']) (fun c hc => .inr (.inr ⟨by omega, ?_⟩)) ?_
    · simpa using hc
    · simp only [List.append_assoc]
  · exact .of_text s.quad (fun c hc => .inl hc) rfl
  · exact .of_text s.octo (fun c hc => .inr (.inl hc)) rfl
  · exact hplain rfl
  · exact hplain rfl

end Printer

/-- The tables of digits agree with the bits of every byte. -/
theorem nibbles_printed (byte : Byte) :
    (binaryNibble (byte >>> 4) = binaryDigits ((byteBits byte).take 4) ∧
      binaryNibble (byte >>> 4 &&& 0x0F) = binaryDigits ((byteBits byte).take 4) ∧
      binaryNibble (byte &&& 0x0F) = binaryDigits ((byteBits byte).drop 4)) ∧
    (hexNibble (byte >>> 4) =
        hexDigit (byte.getMsbD 0) (byte.getMsbD 1) (byte.getMsbD 2) (byte.getMsbD 3) ∧
      hexNibble (byte &&& 0x0F) =
        hexDigit (byte.getMsbD 4) (byte.getMsbD 5) (byte.getMsbD 6) (byte.getMsbD 7)) ∧
    (∀ count < 4,
      [hexNibble (byte >>> 4 &&& leftBitsMask4 (count + 1))] =
        hexDigits ((byteBits byte).take (count + 1)) ∧
      [hexNibble (byte &&& leftBitsMask4 (count + 1))] =
        hexDigits (((byteBits byte).drop 4).take (count + 1))) ∧
    (hexDigitValue (hexNibble byte)).isSome := by
  revert byte
  decide +kernel

theorem binaryNibble_high (byte : Byte) :
    binaryNibble (byte >>> 4) = binaryDigits ((byteBits byte).take 4) :=
  (nibbles_printed byte).1.1

theorem binaryNibble_high_masked (byte : Byte) :
    binaryNibble (byte >>> 4 &&& 0x0F) = binaryDigits ((byteBits byte).take 4) :=
  (nibbles_printed byte).1.2.1

theorem binaryNibble_low (byte : Byte) :
    binaryNibble (byte &&& 0x0F) = binaryDigits ((byteBits byte).drop 4) :=
  (nibbles_printed byte).1.2.2

theorem binaryDigits_append (l l' : List Bool) :
    binaryDigits (l ++ l') = binaryDigits l ++ binaryDigits l' :=
  List.map_append

theorem binaryDigits_take (l : List Bool) (count : Nat) :
    binaryDigits (l.take count) = (binaryDigits l).take count :=
  List.map_take

namespace Printer

theorem appendBinaryBits_writes (s : Separators) (printer : Printer) (bitsOnLsb : Byte)
    (bitsCount : Nat) :
    Writes s printer (printer.appendBinaryBits s bitsOnLsb bitsCount)
      ((binaryNibble bitsOnLsb).take bitsCount) := by
  unfold appendBinaryBits
  by_cases hnone : bitsCount = 0
  · rw [if_neg (not_not.mpr hnone), hnone]
    exact .refl s printer
  · rw [if_pos hnone]
    exact appendBinaryNibble_writes s printer _

theorem binaryBytes_writes (s : Separators) {bytes : List Byte} {bitsCount : Nat}
    (hbytes : bytes.length = bytesFor bitsCount) (printer : Printer) :
    Writes s printer (binaryBytes s bytes bitsCount printer)
      (binaryDigits ((unpack bytes).take bitsCount)) := by
  induction bytes generalizing bitsCount printer with
  | nil =>
    rw [unpack_nil, List.take_nil]
    exact .refl s printer
  | cons byte rest ih =>
    rw [bytesFor, List.length_cons] at hbytes
    have hsplit : (byteBits byte).take 4 ++ (byteBits byte).drop 4 = byteBits byte :=
      List.take_append_drop 4 _
    have hhigh : Writes s printer (printer.appendBinaryNibble s (binaryNibble (byte >>> 4)))
        (binaryDigits ((byteBits byte).take 4)) := by
      rw [← binaryNibble_high]
      exact appendBinaryNibble_writes s printer _
    rw [unpack_cons]
    unfold binaryBytes
    by_cases hwhole : bitsCount ≥ 8
    · have htake : (byteBits byte ++ unpack rest).take bitsCount =
          (byteBits byte).take 4 ++ ((byteBits byte).drop 4 ++ (unpack rest).take (bitsCount - 8)) := by
        rw [List.take_append, List.take_of_length_le (by rw [byteBits_length]; omega),
          byteBits_length, ← List.append_assoc, hsplit]
      rw [if_pos hwhole, htake, binaryDigits_append, binaryDigits_append, ← binaryNibble_low]
      have hrest : rest.length = bytesFor (bitsCount - 8) := by
        rw [bytesFor]
        omega
      exact hhigh.trans ((appendBinaryNibble_writes s _ _).trans (ih hrest _))
    · have hnil : rest = [] := List.length_eq_zero_iff.mp (by omega)
      subst hnil
      rw [if_neg hwhole, unpack_nil, List.append_nil]
      by_cases hnibble : bitsCount ≥ 4
      · have htake : (byteBits byte).take bitsCount =
            (byteBits byte).take 4 ++ ((byteBits byte).drop 4).take (bitsCount - 4) := by
          conv_lhs => rw [← hsplit]
          rw [List.take_append, List.take_of_length_le (by simp; omega)]
          simp
        rw [if_pos hnibble, htake, binaryDigits_append, binaryDigits_take _ (bitsCount - 4),
          ← binaryNibble_low]
        exact hhigh.trans (appendBinaryBits_writes s _ _ _)
      · have htake : (byteBits byte).take bitsCount = ((byteBits byte).take 4).take bitsCount := by
          rw [List.take_take, Nat.min_eq_left (by omega)]
        rw [if_neg hnibble, htake, binaryDigits_take _ bitsCount, ← binaryNibble_high_masked]
        exact appendBinaryBits_writes s printer _ _

end Printer

theorem byteBits_eq_getMsbD (byte : Byte) :
    byteBits byte = [byte.getMsbD 0, byte.getMsbD 1, byte.getMsbD 2, byte.getMsbD 3,
      byte.getMsbD 4, byte.getMsbD 5, byte.getMsbD 6, byte.getMsbD 7] := rfl

theorem hexNibble_high (byte : Byte) :
    hexNibble (byte >>> 4) =
      hexDigit (byte.getMsbD 0) (byte.getMsbD 1) (byte.getMsbD 2) (byte.getMsbD 3) :=
  (nibbles_printed byte).2.1.1

theorem hexNibble_low (byte : Byte) :
    hexNibble (byte &&& 0x0F) =
      hexDigit (byte.getMsbD 4) (byte.getMsbD 5) (byte.getMsbD 6) (byte.getMsbD 7) :=
  (nibbles_printed byte).2.1.2

theorem hexNibble_high_masked (byte : Byte) {count : Nat} (hpos : 0 < count) (hle : count ≤ 4) :
    [hexNibble (byte >>> 4 &&& leftBitsMask4 count)] =
      hexDigits ((byteBits byte).take count) := by
  obtain ⟨rest, rfl⟩ := Nat.exists_eq_add_of_le' hpos
  exact ((nibbles_printed byte).2.2.1 rest (by omega)).1

theorem hexNibble_low_masked (byte : Byte) {count : Nat} (hpos : 0 < count) (hle : count ≤ 4) :
    [hexNibble (byte &&& leftBitsMask4 count)] =
      hexDigits (((byteBits byte).drop 4).take count) := by
  obtain ⟨rest, rfl⟩ := Nat.exists_eq_add_of_le' hpos
  exact ((nibbles_printed byte).2.2.1 rest (by omega)).2

theorem hexNibble_digit (value : Byte) : (hexDigitValue (hexNibble value)).isSome :=
  (nibbles_printed value).2.2.2

namespace Printer

theorem hexBytes_writes (s : Separators) {bytes : List Byte} {bitsCount : Nat}
    (hbytes : bytes.length = bytesFor bitsCount) (printer : Printer) :
    Writes s printer (hexBytes s bytes bitsCount printer)
      (hexDigits ((unpack bytes).take bitsCount)) := by
  induction bytes generalizing bitsCount printer with
  | nil =>
    rw [unpack_nil, List.take_nil]
    exact .refl s printer
  | cons byte rest ih =>
    rw [bytesFor, List.length_cons] at hbytes
    rw [unpack_cons]
    unfold hexBytes
    by_cases hwhole : bitsCount ≥ 8
    · have hrest : rest.length = bytesFor (bitsCount - 8) := by
        rw [bytesFor]
        omega
      have hdigits : hexDigits ((byteBits byte ++ unpack rest).take bitsCount) =
          [hexNibble (byte >>> 4)] ++ ([hexNibble (byte &&& 0x0F)] ++
            hexDigits ((unpack rest).take (bitsCount - 8))) := by
        rw [List.take_append, List.take_of_length_le (by rw [byteBits_length]; omega),
          byteBits_length, hexNibble_high, hexNibble_low, byteBits_eq_getMsbD]
        rfl
      rw [if_pos hwhole, hdigits]
      exact (appendHexNibble_writes s _ _).trans
        ((appendHexNibble_writes s _ _).trans (ih hrest _))
    · have hnil : rest = [] := List.length_eq_zero_iff.mp (by omega)
      subst hnil
      rw [if_neg hwhole, unpack_nil, List.append_nil]
      by_cases hnibble : bitsCount > 4
      · have hdigits : hexDigits ((byteBits byte).take bitsCount) =
            [hexNibble (byte >>> 4)] ++
              hexDigits (((byteBits byte).drop 4).take (bitsCount - 4)) := by
          obtain ⟨count, rfl⟩ : ∃ count, bitsCount = count + 4 := ⟨bitsCount - 4, by omega⟩
          rw [hexNibble_high, byteBits_eq_getMsbD]
          rfl
        rw [if_pos hnibble, hdigits, ← hexNibble_low_masked byte (by omega) (by omega)]
        exact (appendHexNibble_writes s _ _).trans (appendHexNibble_writes s _ _)
      · rw [if_neg hnibble, ← hexNibble_high_masked byte (by omega) (by omega)]
        exact appendHexNibble_writes s _ _

def EndsWithDigit (printer : Printer) : Prop :=
  ∃ digit, printer.text.getLast? = some digit ∧ (hexDigitValue digit).isSome

theorem appendHexNibble_endsWithDigit (s : Separators) (printer : Printer) (value : Byte) :
    (printer.appendHexNibble s (hexNibble value)).EndsWithDigit := by
  refine ⟨hexNibble value, ?_, hexNibble_digit value⟩
  unfold appendHexNibble
  split_ifs <;> simp

theorem hexBytes_endsWithDigit (s : Separators) {bytes : List Byte} {bitsCount : Nat}
    {printer : Printer} (h : bytes ≠ [] ∨ printer.EndsWithDigit) :
    (hexBytes s bytes bitsCount printer).EndsWithDigit := by
  induction bytes generalizing bitsCount printer with
  | nil => exact h.resolve_left fun hne => hne rfl
  | cons byte rest ih =>
    unfold hexBytes
    split_ifs
    all_goals exact ih (.inr (appendHexNibble_endsWithDigit s _ _))

end Printer

/-! ### Reading -/

abbrev Ignored (c : Char) : Prop := isIgnored c = true

theorem ignored_binary (dontCare : DontCare) {c : Char} (hc : Ignored c) :
    binaryCharBit dontCare c = none := by
  have hmem := of_decide_eq_true hc
  simp only [List.mem_cons, List.not_mem_nil, or_false] at hmem
  rcases hmem with rfl | rfl | rfl | rfl | rfl | rfl | rfl | rfl | rfl | rfl | rfl | rfl <;> rfl

theorem ignored_hex {c : Char} (hc : Ignored c) :
    hexDigitValue c = none ∧ c ≠ 'x' ∧ c ≠ 'X' := by
  have hmem := of_decide_eq_true hc
  simp only [List.mem_cons, List.not_mem_nil, or_false] at hmem
  rcases hmem with rfl | rfl | rfl | rfl | rfl | rfl | rfl | rfl | rfl | rfl | rfl | rfl <;> decide

theorem mem_binaryDigits {l : List Bool} {c : Char} (hc : c ∈ binaryDigits l) :
    c = '0' ∨ c = '1' := by
  obtain ⟨bit, -, rfl⟩ := List.mem_map.mp hc
  cases bit <;> simp

theorem binaryTextBits_skips {dontCare : DontCare} {digits text : Text}
    (htext : Interleaved Ignored digits text) :
    binaryTextBits dontCare text = binaryTextBits dontCare digits := by
  unfold binaryTextBits
  induction htext with
  | nil => rfl
  | item c _ ih => simp only [List.filterMap_cons, ih]
  | filler hc _ ih => rw [List.filterMap_cons, ignored_binary _ hc, ih]

theorem binaryTextBits_digits (dontCare : DontCare) (l : List Bool) :
    binaryTextBits dontCare (binaryDigits l) = l := by
  have hbit : (binaryCharBit dontCare ∘ fun bit : Bool => if bit then '1' else '0') = some := by
    funext bit
    cases bit <;> rfl
  rw [binaryTextBits, binaryDigits, List.filterMap_map, hbit, List.filterMap_some]

theorem readBinaryChars_accepts (dontCare : DontCare) {digits text : Text}
    (htext : Interleaved Ignored digits text) (hdigits : ∀ c ∈ digits, c = '0' ∨ c = '1')
    (previousChar : Char) (reader : Reader) :
    ∃ reader', readBinaryChars dontCare previousChar text reader = .ok reader' := by
  induction htext generalizing previousChar reader with
  | nil => exact ⟨reader, rfl⟩
  | item c _ ih =>
    have hrest := ih (fun c hc => hdigits c (List.mem_cons_of_mem _ hc)) c
    unfold readBinaryChars
    rcases hdigits c List.mem_cons_self with rfl | rfl
    · exact hrest _
    · exact hrest _
  | @filler _ _ c hc _ ih =>
    have hread : readBinaryChar dontCare previousChar c reader = .ok reader := by
      have hbit := ignored_binary .isZero hc
      unfold binaryCharBit at hbit
      unfold readBinaryChar
      split_ifs at hbit ⊢ <;> first
        | rfl
        | simp at hbit
        | simp [dontCareBit] at hbit
    unfold readBinaryChars
    rw [hread]
    exact ih hdigits c reader

theorem removeBasePrefix_self {lower upper : Char} {text : Text} (hlower : lower ∉ text)
    (hupper : upper ∉ text) : removeBasePrefix lower upper text = text := by
  unfold removeBasePrefix
  split
  · rename_i letter rest
    apply if_neg
    rintro (rfl | rfl)
    · exact hlower (by simp)
    · exact hupper (by simp)
  · rfl

theorem createFromBinaryString_interleaved {l : List Bool} {text start : Text}
    (htext : Interleaved Ignored (binaryDigits l) text)
    (hstart : start = text ∨ start = '0' :: 'b' :: text) (p : SizeProperty) (dontCare : DontCare) :
    createFromBinaryString start p dontCare = .ok ⟨pack l, l.length % uint32Size, p⟩ := by
  have hnoBase : ∀ c, Ignored c ∨ c = '0' ∨ c = '1' → c ≠ 'b' ∧ c ≠ 'B' := by
    rintro c (hc | rfl | rfl)
    · constructor <;> rintro rfl <;> simp [Ignored, isIgnored] at hc
    · decide
    · decide
  obtain ⟨digits, hdigits, hremoved⟩ : ∃ digits, Interleaved Ignored (binaryDigits l) digits ∧
      removeBasePrefix 'b' 'B' (start.dropWhile isBlank) = digits := by
    rcases hstart with rfl | rfl
    · have hdropped : Interleaved Ignored (binaryDigits l) (start.dropWhile isBlank) := by
        refine htext.dropWhile fun c hc => ?_
        rcases mem_binaryDigits hc with rfl | rfl <;> rfl
      refine ⟨_, hdropped, removeBasePrefix_self ?_ ?_⟩
      · intro hmem
        exact (hnoBase _ ((hdropped.mem hmem).symm.imp_right mem_binaryDigits)).1 rfl
      · intro hmem
        exact (hnoBase _ ((hdropped.mem hmem).symm.imp_right mem_binaryDigits)).2 rfl
    · exact ⟨text, htext, rfl⟩
  obtain ⟨reader, hread⟩ := readBinaryChars_accepts dontCare hdigits
    (fun c hc => mem_binaryDigits hc) '\x00' .start
  cases hcreate : createFromBinaryString start p dontCare with
  | error fault =>
    simp only [createFromBinaryString, hremoved, hread] at hcreate
    split_ifs at hcreate
  | ok v =>
    obtain ⟨l', hl', rfl⟩ := createFromBinaryString_ok hcreate
    rw [hremoved, binaryTextBits_skips hdigits, binaryTextBits_digits] at hl'
    rw [hl']

/-- The zeros that complete the last nibble of a number of bits. -/
def nibblePadding (count : Nat) : List Bool := List.replicate ((4 - count % 4) % 4) false

theorem hexDigit_value (a b c d : Bool) :
    ∃ value, hexDigitValue (hexDigit a b c d) = some value ∧
      (byteBits value).drop 4 = [a, b, c, d] := by
  cases a <;> cases b <;> cases c <;> cases d <;> exact ⟨_, rfl, rfl⟩

theorem hexDigit_isHexDigit (a b c d : Bool) : (hexDigitValue (hexDigit a b c d)).isSome := by
  obtain ⟨value, hvalue, -⟩ := hexDigit_value a b c d
  rw [hvalue]
  rfl

theorem mem_hexDigits {l : List Bool} {c : Char} (hc : c ∈ hexDigits l) :
    (hexDigitValue c).isSome := by
  induction l using hexDigits.induct with
  | case1 a b c' d rest ih =>
    rcases List.mem_cons.mp hc with rfl | hrest
    · exact hexDigit_isHexDigit a b c' d
    · exact ih hrest
  | case2 a b c' => exact List.mem_singleton.mp hc ▸ hexDigit_isHexDigit a b c' false
  | case3 a b => exact List.mem_singleton.mp hc ▸ hexDigit_isHexDigit a b false false
  | case4 a => exact List.mem_singleton.mp hc ▸ hexDigit_isHexDigit a false false false
  | case5 => exact absurd hc List.not_mem_nil

theorem hexTextBits_skips {dontCare : DontCare} {digits text : Text}
    (htext : Interleaved Ignored digits text) (hdigits : ∀ c ∈ digits, (hexDigitValue c).isSome)
    (previousChar previousChar' : Char) :
    hexTextBits dontCare previousChar text = hexTextBits dontCare previousChar' digits := by
  induction htext generalizing previousChar previousChar' with
  | nil => rfl
  | item c _ ih =>
    obtain ⟨value, hvalue⟩ := Option.isSome_iff_exists.mp (hdigits c List.mem_cons_self)
    simp only [hexTextBits, hexCharBits, hvalue]
    rw [ih (fun c hc => hdigits c (List.mem_cons_of_mem _ hc)) c c]
  | filler hc _ ih =>
    obtain ⟨hnone, hx, hX⟩ := ignored_hex hc
    simp only [hexTextBits, hexCharBits, hnone, hx, hX, or_self, false_and, if_false,
      List.nil_append]
    exact ih hdigits _ _

theorem hexTextBits_digits (dontCare : DontCare) (l : List Bool) (previousChar : Char) :
    hexTextBits dontCare previousChar (hexDigits l) = l ++ nibblePadding l.length := by
  induction l using hexDigits.induct generalizing previousChar with
  | case1 a b c d rest ih =>
    obtain ⟨value, hvalue, hbits⟩ := hexDigit_value a b c d
    have hpadding : nibblePadding (a :: b :: c :: d :: rest).length = nibblePadding rest.length := by
      simp only [nibblePadding, List.length_cons, Nat.add_assoc, Nat.reduceAdd, Nat.add_mod_right]
    rw [hexDigits, hexTextBits, hexCharBits, hvalue, ih, hpadding]
    simp only [hbits]
    rfl
  | case2 a b c =>
    obtain ⟨value, hvalue, hbits⟩ := hexDigit_value a b c false
    simp only [hexDigits, hexTextBits, hexCharBits, hvalue, hbits]
    rfl
  | case3 a b =>
    obtain ⟨value, hvalue, hbits⟩ := hexDigit_value a b false false
    simp only [hexDigits, hexTextBits, hexCharBits, hvalue, hbits]
    rfl
  | case4 a =>
    obtain ⟨value, hvalue, hbits⟩ := hexDigit_value a false false false
    simp only [hexDigits, hexTextBits, hexCharBits, hvalue, hbits]
    rfl
  | case5 => rfl

theorem readHexChars_accepts (dontCare : DontCare) {digits text : Text}
    (htext : Interleaved Ignored digits text) (hdigits : ∀ c ∈ digits, (hexDigitValue c).isSome)
    (previousChar : Char) (reader : Reader) :
    ∃ reader', readHexChars dontCare previousChar text reader = .ok reader' := by
  induction htext generalizing previousChar reader with
  | nil => exact ⟨reader, rfl⟩
  | item c _ ih =>
    obtain ⟨value, hvalue⟩ := Option.isSome_iff_exists.mp (hdigits c List.mem_cons_self)
    simp only [readHexChars, readHexChar, hvalue]
    exact ih (fun c hc => hdigits c (List.mem_cons_of_mem _ hc)) c _
  | filler hc _ ih =>
    simp only [readHexChars, readHexChar, (ignored_hex hc).1, if_pos hc]
    exact ih hdigits _ reader

theorem createFromHexString_digits {digits text : Text} (htext : Interleaved Ignored digits text)
    (hvalid : ∀ c ∈ digits, (hexDigitValue c).isSome) (p : SizeProperty) (dontCare : DontCare) :
    createFromHexString text p dontCare =
      .ok ⟨pack (hexTextBits dontCare '\x00' digits),
        (hexTextBits dontCare '\x00' digits).length % uint32Size, p⟩ := by
  have hnoBase : ∀ c, Ignored c ∨ (hexDigitValue c).isSome → c ≠ 'x' ∧ c ≠ 'X' := by
    rintro c (hc | hc)
    · exact (ignored_hex hc).2
    · constructor <;> rintro rfl <;> simp [hexDigitValue] at hc
  have hdigits : Interleaved Ignored digits (text.dropWhile isBlank) := by
    refine htext.dropWhile fun c hc => ?_
    have hdigit := hvalid c hc
    by_contra hblank
    have hmem := of_decide_eq_true (Bool.not_eq_false _ ▸ hblank)
    simp only [List.mem_cons, List.not_mem_nil, or_false] at hmem
    rcases hmem with rfl | rfl | rfl <;> simp [hexDigitValue] at hdigit
  have hremoved : removeBasePrefix 'x' 'X' (text.dropWhile isBlank) = text.dropWhile isBlank := by
    apply removeBasePrefix_self
    · intro hmem
      exact (hnoBase _ ((hdigits.mem hmem).symm.imp_right (hvalid _))).1 rfl
    · intro hmem
      exact (hnoBase _ ((hdigits.mem hmem).symm.imp_right (hvalid _))).2 rfl
  obtain ⟨reader, hread⟩ := readHexChars_accepts dontCare hdigits hvalid '\x00' .start
  cases hcreate : createFromHexString text p dontCare with
  | error fault =>
    simp only [createFromHexString, hremoved, hread] at hcreate
    split_ifs at hcreate
  | ok v =>
    obtain ⟨l', hl', rfl⟩ := createFromHexString_ok hcreate
    rw [hremoved, hexTextBits_skips hdigits hvalid _ '\x00'] at hl'
    rw [hl']

theorem createFromHexString_interleaved {l : List Bool} {text : Text}
    (htext : Interleaved Ignored (hexDigits l) text) (p : SizeProperty) (dontCare : DontCare) :
    createFromHexString text p dontCare =
      .ok ⟨pack (l ++ nibblePadding l.length), (l ++ nibblePadding l.length).length % uint32Size,
        p⟩ := by
  rw [createFromHexString_digits htext fun c hc => mem_hexDigits hc, hexTextBits_digits]

end BinaryVector

end Mast
