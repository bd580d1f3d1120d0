import Mast.BinaryVector.Mutate

/-!
# Integers in a vector

`Set` stores an integer in a vector of fixed size, truncated or extended to its number of bits, and `Get` reads one of any width back. The bits are left aligned, so that each byte of the result is merged from two bytes of the buffer, and the sign is extended in the first of them and in the bytes the vector does not have.
-/

namespace Mast

open BitPacking

namespace BinaryVector

def extensionBit (v : BinaryVector) (asSigned : Bool) : Except Fault Bool :=
  if asSigned then v.isNegative else .ok false

/-- `MergeToByte`: the bits of a byte from the right, as many as the last byte has, behind those of the byte before. -/
def mergeToByte (v : BinaryVector) (lsbOffset lsbBitsCount : Nat) (asSigned : Bool) :
    Except Fault Byte :=
  let secondToLastByteBits := 8 - lsbBitsCount
  match v.data[lsbOffset]? with
  | none => .error .undefinedBehaviour
  | some last =>
    let valueL := last >>> secondToLastByteBits
    if lsbOffset = 0 then
      (v.extensionBit asSigned).map fun negative =>
        if negative then valueL ||| leftBitsMask8 secondToLastByteBits else valueL
    else
      match v.data[lsbOffset - 1]? with
      | none => .error .undefinedBehaviour
      | some previous => .ok (previous <<< lsbBitsCount ||| valueL)

/-- The bytes that the overloads of `Get` read from a vector that is not empty, the least significant one first. -/
def valueBytes (v : BinaryVector) (asSigned : Bool) (count : Nat) : Except Fault (List Byte) :=
  if v.isEmpty then .error (.logicError "BinaryVector must not be empty")
  else do
    let lastByteBits := lastByteBitsCount v.usedBits
    let lastByteOffset := v.data.length - 1
    let negative ← v.extensionBit asSigned
    let fillBits : Byte := if negative then 0xFF else 0x00
    (List.range count).mapM fun k =>
      if v.usedBits > 8 * k then v.mergeToByte (lastByteOffset - k) lastByteBits asSigned
      else .ok fillBits

/-- The number whose bytes are given, the least significant one first. -/
def littleEndian (bytes : List Byte) : Nat := bytes.foldr (fun byte rest => byte.toNat + 256 * rest) 0

/-- The overload of `Get` for an unsigned type. -/
def getUnsigned (width : UIntWidth) (v : BinaryVector) : Except Fault (BitVec width.bits) :=
  (v.valueBytes false (width.bits / 8)).map fun bytes => .ofNat _ (littleEndian bytes)

/-- `Get(int8_t&)`: the last byte, whatever the number of bits. -/
def getInt8 (v : BinaryVector) : Except Fault (BitVec 8) :=
  if v.isEmpty then .error (.logicError "BinaryVector must not be empty")
  else v.mergeToByte (v.data.length - 1) (lastByteBitsCount v.usedBits) true

/-- The overload of `Get` for a signed type. -/
def getSigned : (width : UIntWidth) → BinaryVector → Except Fault (BitVec width.bits)
  | .w8, v => v.getInt8
  | width, v => (v.valueBytes true (width.bits / 8)).map fun bytes => .ofNat _ (littleEndian bytes)

/-- The number a vector holds, its first bit the most significant one. -/
def unsignedValue (v : BinaryVector) : Nat := (BitVec.ofBoolListBE v.bits).toNat

/-- The number a vector holds in two's complement. -/
def signedValue (v : BinaryVector) : Int := (BitVec.ofBoolListBE v.bits).toInt

/-! ### Reading -/

theorem littleEndian_testBit (bytes : List Byte) (i : Nat) :
    (littleEndian bytes).testBit i = (bytes.getD (i / 8) 0).getLsbD (i % 8) := by
  induction bytes generalizing i with
  | nil => simp [littleEndian]
  | cons byte rest ih =>
    have hsum : littleEndian (byte :: rest) = 2 ^ 8 * littleEndian rest + byte.toNat := by
      simp only [littleEndian, List.foldr_cons]
      omega
    rw [hsum, Nat.testBit_two_pow_mul_add _ byte.isLt]
    by_cases hlow : i < 8
    · have hdiv : i / 8 = 0 := by omega
      have hmod : i % 8 = i := by omega
      rw [if_pos hlow, hdiv, hmod]
      rfl
    · have hdiv : i / 8 = (i - 8) / 8 + 1 := by omega
      have hmod : (i - 8) % 8 = i % 8 := by omega
      rw [if_neg hlow, ih, hdiv, hmod]
      rfl

theorem mapM_eq_ok {α β ε : Type} {f : α → Except ε β} {g : α → β} {l : List α}
    (h : ∀ a ∈ l, f a = .ok (g a)) : l.mapM f = .ok (l.map g) := by
  induction l with
  | nil => rfl
  | cons a l ih =>
    have hrest := ih fun b hb => h b (List.mem_cons_of_mem _ hb)
    rw [List.mapM_cons, h a List.mem_cons_self, hrest]
    rfl

theorem getLsbD_leftBitsMask8 {count j : Nat} (hcount : count ≤ 8) (hj : j < 8) :
    (leftBitsMask8 count).getLsbD j = decide (8 - count ≤ j) := by
  interval_cases count <;> interval_cases j <;> rfl

/-- The bit of a vector that has the weight `2 ^ i`. -/
def valueBit (v : BinaryVector) (i : Nat) : Bool := v.bits.getD (v.usedBits - 1 - i) false

theorem ofBoolListBE_msb (bits : List Bool) :
    (BitVec.ofBoolListBE bits).msb = bits.getD 0 false := by
  rw [BitVec.msb, BitVec.getMsbD_ofBoolListBE]

section Reading

variable {v : BinaryVector} (hv : v.ExactBytes) (hpos : 0 < v.usedBits)
include hv

/-- What the vector holds, as a word of its own width. -/
theorem ofBoolListBE_getLsbD (i : Nat) :
    (BitVec.ofBoolListBE v.bits).getLsbD i = (decide (i < v.usedBits) && v.valueBit i) := by
  rw [BitVec.getLsbD_ofBoolListBE, hv.bits_length, valueBit]

theorem getLsbD_signExtend_value {width i : Nat} (hi : i < width) :
    ((BitVec.ofBoolListBE v.bits).signExtend width).getLsbD i =
      if i < v.usedBits then v.valueBit i else true && v.bits.getD 0 false := by
  have hlength := hv.bits_length
  rw [BitVec.getLsbD_signExtend, decide_eq_true hi, Bool.true_and, ofBoolListBE_getLsbD hv,
    ofBoolListBE_msb, Bool.true_and]
  by_cases hin : i < v.usedBits
  · rw [if_pos hin, if_pos (show i < v.bits.length by omega), decide_eq_true hin, Bool.true_and]
  · rw [if_neg hin, if_neg (show ¬i < v.bits.length by omega)]

include hpos

theorem extensionBit_eq (asSigned : Bool) :
    v.extensionBit asSigned = .ok (asSigned && v.bits.getD 0 false) := by
  cases asSigned with
  | true => exact isNegative_eq hv hpos
  | false => rfl

theorem isEmpty_of_pos : v.isEmpty = false := by
  have hbytes := hv.le_data
  rw [isEmpty, List.isEmpty_eq_false_iff]
  exact List.ne_nil_of_length_pos (by omega)

/-- A merged byte holds eight bits of the value, completed with the sign in the first one. -/
theorem mergeToByte_eq (asSigned : Bool) {k : Nat} (hk : 8 * k < v.usedBits) :
    ∃ byte, v.mergeToByte (v.data.length - 1 - k) (lastByteBitsCount v.usedBits) asSigned =
        .ok byte ∧
      ∀ j < 8, byte.getLsbD j =
        if 8 * k + j < v.usedBits then v.valueBit (8 * k + j) else asSigned && v.bits.getD 0 false := by
  obtain ⟨last, hlast⟩ : ∃ last, v.data.length = last + 1 := by
    have hbytes := hv.le_data
    exact ⟨v.data.length - 1, by omega⟩
  have hexact : last + 1 = bytesFor v.usedBits := hlast.symm.trans hv
  obtain ⟨m, hm⟩ : ∃ m, last = m + k := by
    unfold bytesFor at hexact
    exact ⟨last - k, by omega⟩
  obtain ⟨r, hr⟩ : ∃ r, lastByteBitsCount v.usedBits = r := ⟨_, rfl⟩
  have hsplit : 0 < r ∧ r ≤ 8 ∧ v.usedBits = 8 * last + r := by
    unfold bytesFor at hexact
    unfold lastByteBitsCount at hr
    split at hr
    · omega
    · split at hr <;> omega
  obtain ⟨hrpos, hrle, hused⟩ := hsplit
  have hindex : v.data.length - 1 - k = m := by omega
  have hin : m < v.data.length := by omega
  have hvalue {j : Nat} (hj : 8 * k + j < v.usedBits) :
      v.valueBit (8 * k + j) = (v.data.getD ((8 * m + r - 1 - j) / 8) 0).getMsbD
        ((8 * m + r - 1 - j) % 8) := by
    have hbit : v.usedBits - 1 - (8 * k + j) = 8 * m + r - 1 - j := by omega
    rw [valueBit, hbit, hv.bits_getD (by omega)]
  have hlow {j : Nat} (hj : j < r) : v.valueBit (8 * k + j) = v.data[m].getLsbD (8 - r + j) := by
    have hdiv : (8 * m + r - 1 - j) / 8 = m := by omega
    have hmod : (8 * m + r - 1 - j) % 8 = r - 1 - j := by omega
    rw [hvalue (by omega), hdiv, hmod, List.getD_eq_getElem?_getD, List.getElem?_eq_getElem hin,
      Option.getD_some, BitVec.getMsbD_eq_getLsbD, decide_eq_true (by omega), Bool.true_and]
    congr 1
    omega
  have hrest {j : Nat} (hj : r ≤ j) (hj8 : j < 8) : v.data[m].getLsbD (8 - r + j) = false :=
    BitVec.getLsbD_of_ge _ _ (by omega)
  rw [hindex, hr, mergeToByte, List.getElem?_eq_getElem hin]
  by_cases hfirst : m = 0
  · -- the first byte of the buffer has no byte before it
    have hread : (v.extensionBit asSigned).map (fun negative =>
        if negative then v.data[m] >>> (8 - r) ||| leftBitsMask8 (8 - r)
        else v.data[m] >>> (8 - r)) = .ok (if asSigned && v.bits.getD 0 false then
          v.data[m] >>> (8 - r) ||| leftBitsMask8 (8 - r) else v.data[m] >>> (8 - r)) := by
      rw [extensionBit_eq hv hpos]
      rfl
    refine ⟨_, (if_pos hfirst).trans hread, fun j hj => ?_⟩
    have hmask := getLsbD_leftBitsMask8 (show 8 - r ≤ 8 by omega) hj
    by_cases hinside : j < r
    · rw [if_pos (show 8 * k + j < v.usedBits by omega), hlow hinside]
      cases asSigned && v.bits.getD 0 false with
      | true =>
        rw [if_pos rfl, BitVec.getLsbD_or, BitVec.getLsbD_ushiftRight, hmask,
          decide_eq_false (by omega), Bool.or_false]
      | false => rw [if_neg Bool.false_ne_true, BitVec.getLsbD_ushiftRight]
    · rw [if_neg (show ¬8 * k + j < v.usedBits by omega)]
      cases asSigned && v.bits.getD 0 false with
      | true => rw [if_pos rfl, BitVec.getLsbD_or, hmask, decide_eq_true (by omega), Bool.or_true]
      | false =>
        rw [if_neg Bool.false_ne_true, BitVec.getLsbD_ushiftRight, hrest (by omega) hj]
  · have hbefore : m - 1 < v.data.length := by omega
    refine ⟨v.data[m - 1] <<< r ||| v.data[m] >>> (8 - r), ?_, fun j hj => ?_⟩
    · rw [List.getElem?_eq_getElem hbefore]
      exact if_neg hfirst
    · rw [if_pos (show 8 * k + j < v.usedBits by omega), BitVec.getLsbD_or,
        BitVec.getLsbD_ushiftRight, BitVec.getLsbD_shiftLeft,
        decide_eq_true hj, Bool.true_and]
      by_cases hinside : j < r
      · rw [hlow hinside, decide_eq_true hinside, Bool.not_true, Bool.false_and, Bool.false_or]
      · have hdiv : (8 * m + r - 1 - j) / 8 = m - 1 := by omega
        have hmod : (8 * m + r - 1 - j) % 8 = 7 - (j - r) := by omega
        rw [hrest (by omega) hj, hvalue (by omega), hdiv, hmod, decide_eq_false hinside, Bool.or_false,
          Bool.not_false, Bool.true_and, List.getD_eq_getElem?_getD, List.getElem?_eq_getElem hbefore,
          Option.getD_some, BitVec.getMsbD_eq_getLsbD, decide_eq_true (by omega), Bool.true_and]
        congr 1
        omega

theorem valueBytes_eq (asSigned : Bool) (count : Nat) :
    ∃ bytes, v.valueBytes asSigned count = .ok bytes ∧
      ∀ i, i < 8 * count → (littleEndian bytes).testBit i =
        if i < v.usedBits then v.valueBit i else asSigned && v.bits.getD 0 false := by
  have hfilled := isEmpty_of_pos hv hpos
  have hread (k : Nat) : ∃ byte : Byte,
      (if v.usedBits > 8 * k then
        v.mergeToByte (v.data.length - 1 - k) (lastByteBitsCount v.usedBits) asSigned
      else .ok (if asSigned && v.bits.getD 0 false then 0xFF else 0x00)) = .ok byte ∧
      ∀ j < 8, byte.getLsbD j =
        if 8 * k + j < v.usedBits then v.valueBit (8 * k + j) else asSigned && v.bits.getD 0 false := by
    by_cases hk : 8 * k < v.usedBits
    · rw [if_pos hk]
      exact mergeToByte_eq hv hpos asSigned hk
    · refine ⟨_, if_neg hk, fun j hj => ?_⟩
      rw [if_neg (show ¬8 * k + j < v.usedBits by omega)]
      cases asSigned && v.bits.getD 0 false with
      | true =>
        rw [if_pos rfl]
        interval_cases j <;> rfl
      | false =>
        rw [if_neg Bool.false_ne_true]
        interval_cases j <;> rfl
  choose byte hbyte hbits using hread
  refine ⟨(List.range count).map byte, ?_, fun i hi => ?_⟩
  · rw [valueBytes, hfilled, if_neg Bool.false_ne_true, extensionBit_eq hv hpos]
    exact mapM_eq_ok fun k _ => hbyte k
  · have hin : i / 8 < count := by omega
    have hsplit : 8 * (i / 8) + i % 8 = i := Nat.div_add_mod i 8
    rw [littleEndian_testBit, List.getD_eq_getElem?_getD, List.getElem?_map,
      List.getElem?_range hin, Option.map_some, Option.getD_some,
      hbits (i / 8) (i % 8) (Nat.mod_lt i (by decide)), hsplit]

theorem getUnsigned_eq (width : UIntWidth) :
    v.getUnsigned width = .ok (.ofNat width.bits v.unsignedValue) := by
  obtain ⟨bytes, hbytes, hbits⟩ := valueBytes_eq hv hpos false (width.bits / 8)
  have height : 8 * (width.bits / 8) = width.bits := by cases width <;> rfl
  have hvalue : BitVec.ofNat width.bits (littleEndian bytes) =
      (BitVec.ofBoolListBE v.bits).setWidth width.bits := by
    apply BitVec.eq_of_getLsbD_eq
    intro i hi
    rw [BitVec.getLsbD_ofNat, decide_eq_true hi, Bool.true_and, hbits i (by omega),
      BitVec.getLsbD_setWidth, ofBoolListBE_getLsbD hv, decide_eq_true hi, Bool.true_and]
    by_cases hin : i < v.usedBits
    · rw [if_pos hin, decide_eq_true hin, Bool.true_and]
    · rw [if_neg hin, decide_eq_false hin, Bool.false_and, Bool.false_and]
  rw [getUnsigned, hbytes, unsignedValue, BitVec.ofNat_toNat, ← hvalue]
  rfl

theorem getSigned_eq (width : UIntWidth) :
    v.getSigned width = .ok (.ofInt width.bits v.signedValue) := by
  have hextend (width : Nat) : BitVec.ofInt width v.signedValue =
      (BitVec.ofBoolListBE v.bits).signExtend width := rfl
  have hbytes (hlarge : width ≠ .w8) : v.getSigned width =
      (v.valueBytes true (width.bits / 8)).map fun bytes => .ofNat _ (littleEndian bytes) := by
    cases width with
    | w8 => exact absurd rfl hlarge
    | _ => rfl
  rw [hextend]
  by_cases hlarge : width = .w8
  · subst hlarge
    obtain ⟨byte, hread, hbits⟩ := mergeToByte_eq hv hpos true (show 8 * 0 < v.usedBits by omega)
    have hvalue : byte = (BitVec.ofBoolListBE v.bits).signExtend 8 := by
      apply BitVec.eq_of_getLsbD_eq
      intro i hi
      rw [hbits i hi, getLsbD_signExtend_value hv hi, Nat.mul_zero, Nat.zero_add]
    have hbyte : v.getInt8 = .ok ((BitVec.ofBoolListBE v.bits).signExtend 8) := by
      rw [← hvalue, getInt8, isEmpty_of_pos hv hpos, if_neg Bool.false_ne_true]
      exact hread
    exact hbyte
  · obtain ⟨bytes, hread, hbits⟩ := valueBytes_eq hv hpos true (width.bits / 8)
    have height : 8 * (width.bits / 8) = width.bits := by cases width <;> rfl
    have hvalue : BitVec.ofNat width.bits (littleEndian bytes) =
        (BitVec.ofBoolListBE v.bits).signExtend width.bits := by
      apply BitVec.eq_of_getLsbD_eq
      intro i hi
      rw [BitVec.getLsbD_ofNat, decide_eq_true hi, Bool.true_and, hbits i (by omega),
        getLsbD_signExtend_value hv hi]
    rw [hbytes hlarge, hread, ← hvalue]
    rfl

end Reading

/-! ### Writing -/

theorem storedBits_getD {width count i : Nat} (value : BitVec width) (extension : Bool)
    (hi : i < count) :
    (storedBits count value extension).getD (count - 1 - i) false =
      if i < width then value.getLsbD i else extension := by
  have hfront : (List.replicate (count - width) extension).length = count - width :=
    List.length_replicate
  rw [storedBits, List.getD_eq_getElem?_getD]
  by_cases hin : i < width
  · have hbit : width - min count width + (count - 1 - i - (count - width)) = width - 1 - i := by
      omega
    have hlsb : width - 1 - (width - 1 - i) = i := by omega
    rw [if_pos hin, List.getElem?_append_right (by omega), hfront]
    simp only [integerBits]
    rw [List.getElem?_map, List.getElem?_range (by omega), Option.map_some, Option.getD_some, hbit,
      BitVec.getMsbD_eq_getLsbD, hlsb, decide_eq_true (by omega), Bool.true_and]
  · rw [if_neg hin, List.getElem?_append_left (by omega), List.getElem?_replicate,
      if_pos (by omega), Option.getD_some]

theorem unsignedValue_ofBits (l : List Bool) (p : SizeProperty) (i : Nat) :
    (ofBits l p).unsignedValue.testBit i =
      (decide (i < l.length) && l.getD (l.length - 1 - i) false) := by
  rw [unsignedValue, ← BitVec.getLsbD, ofBoolListBE_getLsbD (ofBits_wellFormed _ _).exactBytes,
    valueBit, bits_ofBits, ofBits_usedBits]

/-- The value stored has the bits of the integer and then those that extend it. -/
theorem unsignedValue_testBit {width : Nat} (count : Nat) (value : BitVec width) (extension : Bool)
    (p : SizeProperty) (i : Nat) :
    (ofBits (storedBits count value extension) p).unsignedValue.testBit i =
      (decide (i < count) && if i < width then value.getLsbD i else extension) := by
  rw [unsignedValue_ofBits, storedBits_length]
  by_cases hin : i < count
  · rw [decide_eq_true hin, Bool.true_and, Bool.true_and, storedBits_getD value extension hin]
  · rw [decide_eq_false hin, Bool.false_and, Bool.false_and]

theorem unsignedValue_unsigned {width : Nat} (count : Nat) (value : BitVec width)
    (p : SizeProperty) :
    (ofBits (storedBits count value false) p).unsignedValue = value.toNat % 2 ^ count := by
  apply Nat.eq_of_testBit_eq
  intro i
  rw [unsignedValue_testBit, Nat.testBit_mod_two_pow, ← BitVec.getLsbD]
  by_cases hin : i < width
  · rw [if_pos hin]
  · rw [if_neg hin, BitVec.getLsbD_of_ge value i (by omega)]

/-- A signed integer is stored in two's complement. -/
theorem unsignedValue_signed {width : Nat} (count : Nat) (value : BitVec width) (p : SizeProperty) :
    ((ofBits (storedBits count value value.msb) p).unsignedValue : Int) =
      value.toInt % (2 ^ count : Nat) := by
  have hvalue : (ofBits (storedBits count value value.msb) p).unsignedValue =
      (value.signExtend count).toNat := by
    apply Nat.eq_of_testBit_eq
    intro i
    rw [unsignedValue_testBit, ← BitVec.getLsbD, BitVec.getLsbD_signExtend]
  have hpow : ((2 ^ count : Nat) : Int) ≠ 0 := by positivity
  rw [hvalue, BitVec.signExtend, BitVec.toNat_ofInt, Int.toNat_of_nonneg (Int.emod_nonneg _ hpow)]

theorem signedValue_eq {v : BinaryVector} (hv : v.ExactBytes) :
    v.signedValue = (v.unsignedValue : Int).bmod (2 ^ v.usedBits) := by
  have hlength : 2 ^ v.bits.length = 2 ^ v.usedBits := by rw [hv.bits_length]
  rw [signedValue, unsignedValue, BitVec.toInt_eq_toNat_bmod]
  exact congrArg (Int.bmod _) hlength

/-- What a vector of fixed size promises for the integers of one width: `Set` stores them in its own number of bits, and the overloads of `Get` read what it holds. -/
structure IntegersSurvive (v : BinaryVector) (width : UIntWidth) : Prop where
  unsigned (x : BitVec width.bits) : ∃ v', (setUnsigned width x).run v = .ok () v' ∧
    v'.usedBits = v.usedBits ∧ v'.unsignedValue = x.toNat % 2 ^ v.usedBits ∧
    (∀ width', v'.getUnsigned width' = .ok (.ofNat width'.bits v'.unsignedValue)) ∧
    (x.toNat < 2 ^ v.usedBits → v'.getUnsigned width = .ok x)
  signed (x : BitVec width.bits) : ∃ v', (setSigned width x).run v = .ok () v' ∧
    v'.usedBits = v.usedBits ∧ (v'.unsignedValue : Int) = x.toInt % (2 ^ v.usedBits : Nat) ∧
    (∀ width', v'.getSigned width' = .ok (.ofInt width'.bits v'.signedValue)) ∧
    (-2 ^ (v.usedBits - 1) ≤ x.toInt → x.toInt < 2 ^ (v.usedBits - 1) →
      v'.getSigned width = .ok x)

theorem setInteger_run {v : BinaryVector} (hv : v.Stored) (hpos : 0 < v.usedBits)
    {width : UIntWidth} (hsize : v.sizeProperty = .fixed ∨ v.usedBits = width.bits)
    (value : BitVec width.bits) (extension : Bool) :
    (setInteger width value extension).run v =
      .ok () (ofBits (storedBits v.usedBits value extension) v.sizeProperty) := by
  by_cases hfixed : v.sizeProperty = .fixed
  · rw [setInteger_stored hfixed hpos hv.usedBits_lt, hfixed]
  · rw [setInteger_unfixed hfixed, hsize.resolve_left hfixed]

/-- An integer that fits is read back as it was stored. -/
theorem signedValue_stored {width count : Nat} (hpos : 0 < count) {value : BitVec width}
    (hlow : -2 ^ (count - 1) ≤ value.toInt) (hhigh : value.toInt < 2 ^ (count - 1))
    (p : SizeProperty) :
    (ofBits (storedBits count value value.msb) p).signedValue = value.toInt := by
  have hhalf : (2 ^ count : Nat) = 2 * 2 ^ (count - 1) := by
    rw [← Nat.pow_succ']
    congr 1
    omega
  have hcast : ((2 ^ (count - 1) : Nat) : Int) = 2 ^ (count - 1) := by push_cast; rfl
  rw [signedValue_eq (ofBits_wellFormed _ _).exactBytes, unsignedValue_signed, ofBits_usedBits,
    storedBits_length, Int.emod_bmod]
  apply Int.bmod_eq_of_le <;> omega

/-- The checks of `Set` see the size property `Fixed` only: any other vector has to have the width of the integer already. -/
theorem integersSurvive_iff {v : BinaryVector} (hv : v.Stored) (hpos : 0 < v.usedBits)
    (width : UIntWidth) :
    IntegersSurvive v width ↔ v.sizeProperty = .fixed ∨ v.usedBits = width.bits := by
  constructor
  · intro hsurvive
    by_cases hchecked : v.sizeProperty = .fixed
    · exact .inl hchecked
    · obtain ⟨v', hrun, hused, -⟩ := hsurvive.unsigned 0
      rw [setUnsigned, setInteger_unfixed hchecked] at hrun
      injection hrun with _ hstate
      rw [← hstate, ofBits_usedBits, storedBits_length] at hused
      exact .inr hused.symm
  · intro hsize
    have hread {value : BitVec width.bits} {extension : Bool} :
        0 < (ofBits (storedBits v.usedBits value extension) v.sizeProperty).usedBits := by
      rwa [ofBits_usedBits, storedBits_length]
    constructor
    · intro x
      refine ⟨_, setInteger_run hv hpos hsize x false, ?_, unsignedValue_unsigned _ x _, ?_, ?_⟩
      · rw [ofBits_usedBits, storedBits_length]
      · exact fun width' => getUnsigned_eq (ofBits_wellFormed _ _).exactBytes hread width'
      · intro hfits
        rw [getUnsigned_eq (ofBits_wellFormed _ _).exactBytes hread, unsignedValue_unsigned,
          Nat.mod_eq_of_lt hfits, BitVec.ofNat_toNat, BitVec.setWidth_eq]
    · intro x
      refine ⟨_, setInteger_run hv hpos hsize x x.msb, ?_, unsignedValue_signed _ x _, ?_, ?_⟩
      · rw [ofBits_usedBits, storedBits_length]
      · exact fun width' => getSigned_eq (ofBits_wellFormed _ _).exactBytes hread width'
      · intro hlow hhigh
        rw [getSigned_eq (ofBits_wellFormed _ _).exactBytes hread,
          signedValue_stored hpos hlow hhigh, BitVec.ofInt_toInt]

theorem integersSurvive_three_bits :
    IntegersSurvive (ofBits [true, false, true] .fixed) .w8 :=
  (integersSurvive_iff ⟨(ofBits_wellFormed _ _).exactBytes, by decide⟩ (by decide) .w8).mpr
    (.inl rfl)

/-- A vector whose fixed size is also kept by its copies takes the width of the integer. -/
theorem not_integersSurvive_fixedOnCopy :
    ¬∀ v : BinaryVector, v.Stored → 0 < v.usedBits → v.hasFixedSize →
      ∀ width, IntegersSurvive v width := by
  intro hall
  have hsurvive := hall (ofBits [true, false, true] .fixedOnCopy)
    ⟨(ofBits_wellFormed _ _).exactBytes, by decide⟩ (by decide) rfl .w8
  obtain ⟨v', hrun, hused, -⟩ := hsurvive.unsigned 5
  have hgrown : (setUnsigned .w8 5).run (ofBits [true, false, true] .fixedOnCopy) =
      .ok () (ofBits [false, false, false, false, false, true, false, true] .fixedOnCopy) := rfl
  rw [hgrown] at hrun
  injection hrun with _ hstate
  rw [← hstate] at hused
  exact absurd hused (by decide)

end BinaryVector

end Mast
