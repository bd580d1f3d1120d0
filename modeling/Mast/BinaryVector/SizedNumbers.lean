import Mast.BinaryVector.Repeated
import Mast.BinaryVector.RoundTrip

/-!
# Sized numbers

A sized ICL number is meant to give as many bits as its size says: its last bits when it has more, and copies of its first bit before it when it has fewer. The copies are appended to what was read before, by `appendBits`; where that call is wrong, the number leaves a zero instead of its first bit.
-/

namespace Mast

open BitPacking Interleaving

namespace BinaryVector

/-! ### Sized numbers -/

def IsDigit (letter c : Char) : Prop :=
  if letter = 'b' ∨ letter = 'B' then c = '0' ∨ c = '1' else (hexDigitValue c).isSome

instance (letter c : Char) : Decidable (IsDigit letter c) :=
  inferInstanceAs (Decidable (ite _ _ _))

/-- A binary or hexadecimal number with its size, as it is written. -/
structure SizedNumber where
  inverted : Bool
  size : Nat
  letter : Char
  digits : Text
  size_pos : 0 < size
  letter_mem : letter ∈ ['b', 'B', 'h', 'H']
  digits_ne_nil : digits ≠ []
  digits_valid : ∀ c ∈ digits, IsDigit letter c

namespace SizedNumber

def text (n : SizedNumber) : Text :=
  (if n.inverted then ['~'] else []) ++ decimal n.size ++ '\'' :: n.letter :: n.digits

def digitBits (n : SizedNumber) : List Bool :=
  if n.letter = 'b' ∨ n.letter = 'B' then n.digits.map (· == '1')
  else n.digits.flatMap fun c => (byteBits ((hexDigitValue c).getD 0)).drop 4

/-- The copies of the first bit that are missing before the digits. -/
def missing (n : SizedNumber) : List Bool :=
  List.replicate (n.size - n.digitBits.length) (n.digitBits.headD false)

/-- The bits a number stands for: as many as its size, complemented after a tilde. -/
def chunk (n : SizedNumber) : List Bool :=
  (n.missing ++ n.digitBits.drop (n.digitBits.length - n.size)).map (xor n.inverted)

theorem chunk_length (n : SizedNumber) : n.chunk.length = n.size := by
  simp only [chunk, missing, List.length_map, List.length_append, List.length_replicate,
    List.length_drop]
  omega

/-- The copies of the first bit of the number, if any, are appended as they should. -/
def FillsAt (n : SizedNumber) (offset : Nat) : Prop :=
  offset % 8 = 0 ∨ n.digitBits.headD false = n.inverted ∨ n.size - n.digitBits.length < 8

end SizedNumber

/-! ### One number -/

theorem isBlank_ignored {c : Char} (hc : isBlank c = true) : Ignored c ∧ endsChunk c = false := by
  have hmem := of_decide_eq_true hc
  simp only [List.mem_cons, List.not_mem_nil, or_false] at hmem
  rcases hmem with rfl | rfl | rfl <;> exact ⟨rfl, rfl⟩

theorem binaryDigits_of_digits {digits : Text} (hdigits : ∀ c ∈ digits, c = '0' ∨ c = '1') :
    binaryDigits (digits.map (· == '1')) = digits := by
  rw [binaryDigits, List.map_map]
  conv_rhs => rw [← List.map_id digits]
  apply List.map_congr_left
  intro c hc
  rcases hdigits c hc with rfl | rfl <;> rfl

theorem hexTextBits_flatMap (dontCare : DontCare) {digits : Text}
    (hdigits : ∀ c ∈ digits, (hexDigitValue c).isSome) (previousChar : Char) :
    hexTextBits dontCare previousChar digits =
      digits.flatMap fun c => (byteBits ((hexDigitValue c).getD 0)).drop 4 := by
  induction digits generalizing previousChar with
  | nil => rfl
  | cons c rest ih =>
    obtain ⟨value, hvalue⟩ := Option.isSome_iff_exists.mp (hdigits c List.mem_cons_self)
    have hrest := ih (fun c hc => hdigits c (List.mem_cons_of_mem _ hc)) c
    simp only [hexTextBits, hexCharBits, List.flatMap_cons, hvalue, Option.getD_some, hrest]

section

variable {info : EncodingInfo} {bitsChunk : Text} {dontCare : DontCare} {vector : BinaryVector}

theorem chunkValue_truncated {truncated : BinaryVector} (hchunk : bitsChunk ≠ [])
    (hvector : chunkVector info.base bitsChunk dontCare = .ok vector) (hsize : info.bitsCount ≠ 0)
    (hlonger : info.bitsCount < vector.usedBits)
    (hslice : vector.slice (vector.usedBits - info.bitsCount) info.bitsCount = .ok truncated) :
    chunkValue info bitsChunk dontCare = .ok ⟨truncated, none, info.inverted⟩ := by
  have hresized : info.bitsCount ≠ 0 ∧ info.bitsCount ≠ vector.usedBits :=
    ⟨hsize, Nat.ne_of_lt hlonger⟩
  simp only [chunkValue, if_neg hchunk, hvector, if_pos hresized, if_pos hlonger, hslice]

theorem chunkValue_extended {negative : Bool} (hchunk : bitsChunk ≠ [])
    (hvector : chunkVector info.base bitsChunk dontCare = .ok vector) (hsize : info.bitsCount ≠ 0)
    (hshorter : vector.usedBits < info.bitsCount) (hnegative : isNegative vector = .ok negative) :
    chunkValue info bitsChunk dontCare =
      .ok ⟨vector, some (if info.inverted then !negative else negative,
        info.bitsCount - vector.usedBits), info.inverted⟩ := by
  have hresized : info.bitsCount ≠ 0 ∧ info.bitsCount ≠ vector.usedBits :=
    ⟨hsize, Nat.ne_of_gt hshorter⟩
  have hnot : ¬info.bitsCount < vector.usedBits := by omega
  simp only [chunkValue, if_neg hchunk, hvector, if_pos hresized, if_neg hnot, hnegative]

end

namespace SizedNumber

variable (n : SizedNumber) {blanks : Text}

theorem letter_base : numberBaseForValuePrefix [n.letter] =
    if n.letter = 'b' ∨ n.letter = 'B' then .binary else .hexadecimal := by
  have hletter := n.letter_mem
  simp only [List.mem_cons, List.not_mem_nil, or_false] at hletter
  rcases hletter with h | h | h | h <;> rw [h] <;> rfl

theorem digitBits_ne_nil : n.digitBits ≠ [] := by
  obtain ⟨c, rest, hdigits⟩ := List.exists_cons_of_ne_nil n.digits_ne_nil
  unfold digitBits
  rw [hdigits]
  split
  · simp
  · intro hnone
    have hlength := congrArg List.length hnone
    simp at hlength

theorem chunkVector_eq (hblanks : ∀ c ∈ blanks, isBlank c = true) (dontCare : DontCare)
    (hbound : n.digitBits.length < uint32Size) :
    chunkVector (numberBaseForValuePrefix [n.letter]) (n.digits ++ blanks) dontCare =
      .ok (ofBits n.digitBits .notFixed) := by
  have hbody : Interleaved Ignored n.digits (n.digits ++ blanks) := by
    have hfiller := Interleaved.of_filler fun c hc => (isBlank_ignored (hblanks c hc)).1
    have hboth := (Interleaved.refl n.digits).append hfiller
    rwa [List.append_nil] at hboth
  have hvalid := n.digits_valid
  rw [letter_base]
  unfold digitBits at hbound ⊢
  by_cases hbinary : n.letter = 'b' ∨ n.letter = 'B'
  · simp only [IsDigit, if_pos hbinary] at hvalid hbound ⊢
    have hread := createFromBinaryString_interleaved (l := n.digits.map (· == '1'))
      (by rwa [binaryDigits_of_digits hvalid]) (.inl rfl) .notFixed dontCare
    rw [Nat.mod_eq_of_lt hbound] at hread
    exact hread
  · simp only [IsDigit, if_neg hbinary] at hvalid hbound ⊢
    have hread := createFromHexString_digits hbody hvalid .notFixed dontCare
    rw [hexTextBits_flatMap dontCare hvalid, Nat.mod_eq_of_lt hbound] at hread
    exact hread

def chunkValue : ChunkValue where
  vector := ofBits (n.digitBits.drop (n.digitBits.length - n.size)) .notFixed
  extension :=
    if n.digitBits.length < n.size then
      some (xor n.inverted (n.digitBits.headD false), n.size - n.digitBits.length)
    else none
  inverted := n.inverted

theorem isNegative_ofBits {l : List Bool} (hl : l ≠ []) (p : SizeProperty) :
    isNegative (ofBits l p) = .ok (l.headD false) := by
  rw [isNegative_eq (ofBits_wellFormed l p).exactBytes (List.length_pos_iff.mpr hl), bits_ofBits]
  cases l <;> rfl

theorem chunkValue_eq (hblanks : ∀ c ∈ blanks, isBlank c = true) (dontCare : DontCare)
    (hbound : n.digitBits.length < uint32Size) :
    BinaryVector.chunkValue ⟨numberBaseForValuePrefix [n.letter], n.inverted, n.size⟩
      (n.digits ++ blanks) dontCare = .ok n.chunkValue := by
  have hne : n.digits ++ blanks ≠ [] := by simp [n.digits_ne_nil]
  have hvector := n.chunkVector_eq hblanks dontCare hbound
  have hpos := n.size_pos
  rcases Nat.lt_trichotomy n.size n.digitBits.length with hlonger | hsame | hshorter
  · have hslice : (ofBits n.digitBits .notFixed).slice (n.digitBits.length - n.size) n.size = _ :=
      slice_eq (ofBits_wellFormed _ _).exactBytes hbound (by rw [ofBits_usedBits]; omega)
    rw [bits_ofBits, List.take_of_length_le (by rw [List.length_drop]; omega)] at hslice
    rw [chunkValue_truncated hne hvector (Nat.ne_of_gt hpos) hlonger hslice, chunkValue,
      if_neg (by omega)]
  · rw [chunkValue_exact hne hvector (.inr hsame), chunkValue, hsame, if_neg (Nat.lt_irrefl _),
      Nat.sub_self, List.drop_zero]
  · have hnegative := isNegative_ofBits n.digitBits_ne_nil .notFixed
    have hnone : n.digitBits.length - n.size = 0 := by omega
    rw [chunkValue_extended hne hvector (Nat.ne_of_gt hpos) hshorter hnegative, chunkValue,
      if_pos hshorter, hnone, List.drop_zero, ofBits_usedBits]
    cases n.inverted <;> simp

def kept : List Bool := (n.digitBits.drop (n.digitBits.length - n.size)).map (xor n.inverted)

theorem kept_length : n.kept.length = min n.size n.digitBits.length := by
  rw [kept, List.length_map, List.length_drop]
  omega

theorem chunk_eq : n.chunk = n.missing.map (xor n.inverted) ++ n.kept :=
  List.map_append

theorem vector_read : (if n.chunkValue.inverted then build n.chunkValue.vector toggleBits
    else .ok n.chunkValue.vector) = .ok (ofBits n.kept .notFixed) := by
  have hexact := (ofBits_wellFormed (n.digitBits.drop (n.digitBits.length - n.size))
    .notFixed).exactBytes
  cases hinverted : n.inverted with
  | true =>
    simp only [chunkValue, hinverted, if_true, build, toggleBits_run hexact, bits_ofBits,
      ofBits_sizeProperty, kept]
    congr 2
    apply List.map_congr_left
    intro bit _
    exact (Bool.true_xor bit).symm
  | false =>
    have hsame : ∀ l : List Bool, l.map (xor false) = l := fun l =>
      (List.map_congr_left fun bit _ => Bool.false_xor bit).trans (List.map_id l)
    simp only [chunkValue, hinverted, kept, hsame, Bool.false_eq_true, if_false]

/-- The copies that are missing are appended first, then the kept digits. -/
theorem appendChunkValue_eq :
    appendChunkValue n.chunkValue =
      (appendBits (xor n.inverted (n.digitBits.headD false)) (n.size - n.digitBits.length) >>=
        fun _ => append (ofBits n.kept .notFixed)) := by
  rw [appendChunkValue, vector_read]
  by_cases hshorter : n.digitBits.length < n.size
  · have hextension : n.chunkValue.extension = some (xor n.inverted (n.digitBits.headD false),
        n.size - n.digitBits.length) := if_pos hshorter
    rw [hextension]
    rfl
  · have hextension : n.chunkValue.extension = none := if_neg hshorter
    have hnone : n.size - n.digitBits.length = 0 := by omega
    rw [hextension, hnone]
    rfl

theorem missing_eq : n.missing.map (xor n.inverted) =
    List.replicate (n.size - n.digitBits.length) (xor n.inverted (n.digitBits.headD false)) :=
  List.map_replicate

theorem appendChunkValue_fills {l : List Bool} (hfills : n.FillsAt l.length)
    (hbound : l.length + n.size < uint32Size) :
    (appendChunkValue n.chunkValue).run (ofBits l .notFixed) =
      .ok () (ofBits (l ++ n.chunk) .notFixed) := by
  have hsafe : l.length % 8 = 0 ∨ xor n.inverted (n.digitBits.headD false) = false ∨
      n.size - n.digitBits.length < 8 := by
    refine hfills.imp_right (Or.imp_left fun hsame => ?_)
    rw [hsame, Bool.xor_self]
  have hlength := n.kept_length
  have hones := appendBits_ofBits (p := .notFixed) _ _ hsafe (by decide) (by omega)
  have hkept := append_ofBits (l := l ++ n.missing.map (xor n.inverted)) (p := .notFixed)
    (ofBits_wellFormed n.kept .notFixed).exactBytes (by decide)
    (by rw [List.length_append, missing_eq, List.length_replicate, ofBits_usedBits]; omega)
  rw [bits_ofBits, missing_eq] at hkept
  rw [appendChunkValue_eq, EStateM.run_bind, hones, chunk_eq, missing_eq, ← List.append_assoc]
  exact hkept

/-- Whatever the vector, the bits it has stay. -/
theorem appendChunkValue_extendsBy {v : BinaryVector} (hexact : v.ExactBytes)
    (hfree : v.sizeProperty ≠ .fixed) (hbound : v.usedBits + n.size < uint32Size) :
    ExtendsBy (appendChunkValue n.chunkValue) v n.size := by
  have hlength := n.kept_length
  obtain ⟨v₁, hrun₁, hones⟩ := appendBits_extendsBy hexact hfree
    (xor n.inverted (n.digitBits.headD false)) (n.size - n.digitBits.length) (by omega)
  have hused := hones.usedBits
  obtain ⟨v₂, hrun₂, hkept⟩ := append_extendsBy (ofBits_wellFormed n.kept .notFixed).exactBytes
    hones.exactBytes (by rwa [hones.sizeProperty]) (by rw [ofBits_usedBits]; omega)
  have hsum : n.size - n.digitBits.length + (ofBits n.kept .notFixed).usedBits = n.size := by
    rw [ofBits_usedBits]
    omega
  refine ⟨v₂, ?_, hsum ▸ hones.trans hkept⟩
  rw [appendChunkValue_eq, EStateM.run_bind, hrun₁]
  exact hrun₂

/-- A number that does not fill its size leaves a zero for its first bit, which is a one. -/
theorem appendChunkValue_misses {l : List Bool} (hmisses : ¬n.FillsAt l.length)
    (hbound : l.length + n.size < uint32Size) :
    n.chunk[0]? = some true ∧ ∃ v', (appendChunkValue n.chunkValue).run (ofBits l .notFixed) =
      .ok () v' ∧ Extends (ofBits l .notFixed) v' n.size ∧ v'.bits[l.length]? = some false := by
  simp only [FillsAt, not_or, Nat.not_lt] at hmisses
  obtain ⟨hunaligned, hone, hwhole⟩ := hmisses
  have hfill : xor n.inverted (n.digitBits.headD false) = true := by
    cases hinverted : n.inverted <;> simpa [hinverted] using hone
  have hlength := n.kept_length
  obtain ⟨v₁, hrun₁, hones, hzero⟩ := appendBits_counts_unused (p := .notFixed) (by decide) true
    hunaligned hwhole (by omega)
  have hused := hones.usedBits
  rw [ofBits_usedBits] at hused
  obtain ⟨v₂, hrun₂, hkept⟩ := append_extendsBy (ofBits_wellFormed n.kept .notFixed).exactBytes
    hones.exactBytes (hones.sizeProperty ▸ SizeProperty.noConfusion) (by rw [ofBits_usedBits]; omega)
  have hsum : n.size - n.digitBits.length + (ofBits n.kept .notFixed).usedBits = n.size := by
    rw [ofBits_usedBits]
    omega
  refine ⟨?_, v₂, ?_, hsum ▸ hones.trans hkept, hkept.getElem? hzero⟩
  · rw [chunk_eq, missing_eq, hfill, List.getElem?_append_left (by simp; omega)]
    exact List.getElem?_replicate_of_lt (by omega)
  · rw [appendChunkValue_eq, hfill, EStateM.run_bind, hrun₁]
    exact hrun₂

theorem text_eq : ∃ c rest, n.text = c :: rest ∧ isBlank c = false := by
  obtain ⟨c, rest, hdecimal, hlow, hhigh⟩ := decimal_head n.size_pos
  unfold text
  cases n.inverted with
  | true => exact ⟨'~', _, rfl, rfl⟩
  | false =>
    rw [hdecimal]
    refine ⟨c, _, rfl, ?_⟩
    by_contra hblank
    have hmem := of_decide_eq_true (Bool.not_eq_false _ ▸ hblank)
    simp only [List.mem_cons, List.not_mem_nil, or_false] at hmem
    rcases hmem with rfl | rfl | rfl <;> exact absurd hlow (by decide)

theorem trimLeft_text (rest : Text) : trimLeft (n.text ++ rest) = n.text ++ rest := by
  obtain ⟨c, more, htext, hblank⟩ := n.text_eq
  rw [htext, List.cons_append]
  exact trimLeft_of_not_blank hblank _

theorem getNextChunk_text (firstChunk : Bool) {rest : Text} (hsize : n.size < uint32Size)
    (hblanks : ∀ c ∈ blanks, isBlank c = true)
    (hrest : ∀ c, rest.head? = some c → endsChunk c = true) :
    getNextChunk firstChunk (n.text ++ (blanks ++ rest)) =
      .ok (⟨numberBaseForValuePrefix [n.letter], n.inverted, n.size⟩, n.digits ++ blanks,
        afterComma rest) := by
  have hletter : numberBaseForValuePrefix [n.letter] ≠ .undefined := by
    rw [letter_base]
    split <;> exact NumberBase.noConfusion
  have hbody : ∀ c ∈ n.digits ++ blanks, endsChunk c = false := by
    intro c hc
    rcases List.mem_append.mp hc with hdigit | hblank
    · have hvalid := n.digits_valid c hdigit
      unfold IsDigit at hvalid
      split at hvalid
      · rcases hvalid with rfl | rfl <;> rfl
      · exact hexDigit_not_endsChunk hvalid
    · exact (isBlank_ignored (hblanks c hblank)).2
  unfold text
  cases n.inverted with
  | true =>
    have hnext := getNextChunk_inverted firstChunk n.letter rest n.size_pos hsize hletter hbody hrest
    simpa using hnext
  | false =>
    have hnext := getNextChunk_sized firstChunk n.letter rest n.size_pos hsize hletter hbody hrest
    simpa using hnext

theorem appendChunkValues_text (firstChunk : Bool) (rest : Text) (hsize : n.size < uint32Size)
    (hblanks : ∀ c ∈ blanks, isBlank c = true)
    (hrest : ∀ c, rest.head? = some c → endsChunk c = true) (dontCare : DontCare)
    (hdigits : n.digitBits.length < uint32Size) {v v' : BinaryVector}
    (hrun : (appendChunkValue n.chunkValue).run v = .ok () v') :
    appendChunkValues dontCare firstChunk (n.text ++ (blanks ++ rest)) v =
      appendChunkValues dontCare false (afterComma rest) v' := by
  obtain ⟨c, more, htext, -⟩ := n.text_eq
  exact appendChunkValues_next (n.getNextChunk_text firstChunk hsize hblanks hrest)
    (n.chunkValue_eq hblanks dontCare hdigits) hrun (by rw [htext]; exact List.cons_ne_nil _ _)

end SizedNumber

end BinaryVector

end Mast
