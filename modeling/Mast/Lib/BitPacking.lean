import Mathlib.Data.List.Basic
import Mathlib.Data.BitVec
import Mathlib.Tactic.Common

/-!
# Bits packed into bytes, most significant bit first

A bit string is stored left aligned in a list of bytes: the first bit is the most significant bit of the first byte, and the free bits of the last byte are zero. `unpack` reads every bit of a buffer, `pack` builds the one buffer of minimal size that starts with a given bit string.
-/

namespace BitPacking

abbrev Byte := BitVec 8

/-- The bits of a byte, most significant first. -/
def byteBits (byte : Byte) : List Bool := (List.range 8).map byte.getMsbD

/-- The byte that starts with `bits` and is completed with zeros. -/
def byteOfBits (bits : List Bool) : Byte :=
  (BitVec.ofBoolListBE (bits.takeD 8 false)).cast (by simp)

/-- The number of bytes that `count` bits take. -/
def bytesFor (count : Nat) : Nat := (count + 7) / 8

def unpack (data : List Byte) : List Bool := data.flatMap byteBits

/-- `size` bytes that start with `bits`. -/
def packInto : Nat → List Bool → List Byte
  | 0, _ => []
  | size + 1, bits => byteOfBits bits :: packInto size (bits.drop 8)

def pack (bits : List Bool) : List Byte := packInto (bytesFor bits.length) bits

/-! ### Single bytes -/

@[simp] theorem byteBits_length (byte : Byte) : (byteBits byte).length = 8 := by
  simp [byteBits]

@[simp] theorem byteBits_getElem (byte : Byte) (i : Nat) (h : i < (byteBits byte).length) :
    (byteBits byte)[i] = byte.getMsbD i := by
  simp [byteBits]

theorem byteBits_injective {left right : Byte} (h : byteBits left = byteBits right) :
    left = right := by
  apply BitVec.eq_of_getMsbD_eq
  intro i hi
  have hget := congrArg (fun bits => bits.getD i false) h
  simpa [List.getD_eq_getElem?_getD, hi] using hget

theorem byteBits_byteOfBits (bits : List Bool) :
    byteBits (byteOfBits bits) = bits.takeD 8 false := by
  apply List.ext_getElem
  · simp
  · intro i hleft hright
    rw [byteBits_getElem, byteOfBits, BitVec.getMsbD_cast, BitVec.getMsbD_ofBoolListBE,
      List.getD_eq_getElem?_getD, List.getElem?_eq_getElem hright, Option.getD_some]

theorem byteBits_or (left right : Byte) :
    byteBits (left ||| right) = List.zipWith (· || ·) (byteBits left) (byteBits right) := by
  apply List.ext_getElem <;> simp

theorem byteBits_and (left right : Byte) :
    byteBits (left &&& right) = List.zipWith (· && ·) (byteBits left) (byteBits right) := by
  apply List.ext_getElem <;> simp

theorem byteBits_xor (left right : Byte) :
    byteBits (left ^^^ right) = List.zipWith xor (byteBits left) (byteBits right) := by
  apply List.ext_getElem <;> simp

theorem byteBits_not (byte : Byte) : byteBits (~~~byte) = (byteBits byte).map not := by
  apply List.ext_getElem
  · simp
  · intro i hleft hright
    have hi : i < 8 := by simpa using hleft
    simp [hi]

theorem byteBits_shiftLeft (byte : Byte) {count : Nat} (hcount : count ≤ 8) :
    byteBits (byte <<< count) = (byteBits byte).drop count ++ List.replicate count false := by
  apply List.ext_getElem
  · simp; omega
  · intro i hleft hright
    have hi : i < 8 := by simpa using hleft
    rw [byteBits_getElem, BitVec.getMsbD_shiftLeft, List.getElem_append]
    by_cases hlow : i < 8 - count
    · simp [hlow, Nat.add_comm]
    · have hpast : byte.getMsbD (i + count) = false := by
        rw [BitVec.getMsbD_of_ge _ _ (by omega)]
      simp [hlow, hpast]

theorem byteBits_shiftRight (byte : Byte) {count : Nat} (hcount : count ≤ 8) :
    byteBits (byte >>> count) =
      List.replicate count false ++ (byteBits byte).take (8 - count) := by
  apply List.ext_getElem
  · simp; omega
  · intro i hleft hright
    have hi : i < 8 := by simpa using hleft
    rw [byteBits_getElem, BitVec.getMsbD_ushiftRight, List.getElem_append]
    by_cases hlow : i < count
    · simp [hlow]
    · simp [hlow, hi]

/-- Completing a byte whose last bits are free with the first bits of another one. -/
theorem byteBits_or_shiftRight {byte : Byte} {bits : List Bool} {free : Nat}
    (hbyte : byteBits byte = bits ++ List.replicate free false) (added : Byte) :
    byteBits (byte ||| added >>> bits.length) = bits ++ (byteBits added).take free := by
  have hlength : bits.length + free = 8 := by
    simpa using (congrArg List.length hbyte).symm
  have hfree : 8 - bits.length = free := by omega
  rw [byteBits_or, byteBits_shiftRight _ (by omega), hbyte, hfree,
    List.zipWith_append (by simp)]
  congr 1
  · apply List.ext_getElem <;> simp
  · apply List.ext_getElem
    · simp
    · simp

/-! ### Buffers -/

@[simp] theorem unpack_nil : unpack [] = [] := rfl

@[simp] theorem unpack_cons (byte : Byte) (data : List Byte) :
    unpack (byte :: data) = byteBits byte ++ unpack data := rfl

@[simp] theorem unpack_append (left right : List Byte) :
    unpack (left ++ right) = unpack left ++ unpack right := by
  simp [unpack]

@[simp] theorem unpack_length (data : List Byte) : (unpack data).length = 8 * data.length := by
  induction data with
  | nil => rfl
  | cons byte data ih => simp [ih]; omega

theorem unpack_getElem (data : List Byte) (i : Nat) (h : i < (unpack data).length) :
    (unpack data)[i] = (data.getD (i / 8) 0).getMsbD (i % 8) := by
  induction data generalizing i with
  | nil => simp at h
  | cons byte data ih =>
    simp only [unpack_cons, List.getElem_append, byteBits_length]
    by_cases hi : i < 8
    · have hdiv : i / 8 = 0 := by omega
      have hmod : i % 8 = i := by omega
      rw [dif_pos hi, byteBits_getElem, hdiv, hmod, List.getD_cons_zero]
    · have hdiv : i / 8 = (i - 8) / 8 + 1 := by omega
      have hmod : (i - 8) % 8 = i % 8 := by omega
      rw [dif_neg hi, ih, hdiv, hmod, List.getD_cons_succ]

theorem unpack_injective {left right : List Byte} (h : unpack left = unpack right) :
    left = right := by
  have hlength := congrArg List.length h
  induction left generalizing right with
  | nil =>
    cases right with
    | nil => rfl
    | cons byte right =>
      simp only [unpack_length, List.length_nil, List.length_cons] at hlength
      omega
  | cons byte left ih =>
    cases right with
    | nil => simp at hlength
    | cons other right =>
      obtain ⟨hbyte, hrest⟩ := List.append_inj h (by simp)
      rw [byteBits_injective hbyte, ih hrest (congrArg List.length hrest)]

theorem take_unpack_concat (front : List Byte) (last : Byte) (count : Nat) :
    (unpack (front ++ [last])).take (8 * front.length + count) =
      unpack front ++ (byteBits last).take count := by
  rw [unpack_append, unpack_cons, unpack_nil, List.append_nil, ← unpack_length,
    List.take_length_add_append]

theorem unpack_replicate_zero (count : Nat) :
    unpack (List.replicate count (0 : Byte)) = List.replicate (8 * count) false := by
  induction count with
  | zero => rfl
  | succ count ih =>
    rw [List.replicate_succ, unpack_cons, ih, Nat.mul_succ, Nat.add_comm, List.replicate_add]
    rfl

theorem unpack_map {f : Byte → Byte} {g : Bool → Bool}
    (hf : ∀ byte, byteBits (f byte) = (byteBits byte).map g) (data : List Byte) :
    unpack (data.map f) = (unpack data).map g := by
  induction data with
  | nil => rfl
  | cons byte data ih => rw [List.map_cons, unpack_cons, unpack_cons, hf, ih, List.map_append]

theorem unpack_zipWith {f : Byte → Byte → Byte} {g : Bool → Bool → Bool}
    (hf : ∀ left right, byteBits (f left right) = List.zipWith g (byteBits left) (byteBits right))
    (left right : List Byte) :
    unpack (List.zipWith f left right) = List.zipWith g (unpack left) (unpack right) := by
  induction left generalizing right with
  | nil => rfl
  | cons byte left ih =>
    cases right with
    | nil => simp
    | cons other right =>
      rw [List.zipWith_cons_cons, unpack_cons, unpack_cons, unpack_cons, hf, ih,
        List.zipWith_append (by simp)]

theorem unpack_drop (data : List Byte) (count : Nat) :
    unpack (data.drop count) = (unpack data).drop (8 * count) := by
  induction data generalizing count with
  | nil => simp
  | cons byte data ih =>
    cases count with
    | zero => simp
    | succ count =>
      rw [List.drop_succ_cons, ih, unpack_cons, Nat.mul_succ, Nat.add_comm, List.drop_append]
      simp

@[simp] theorem packInto_length (size : Nat) (bits : List Bool) :
    (packInto size bits).length = size := by
  induction size generalizing bits with
  | zero => rfl
  | succ size ih => simp [packInto, ih]

@[simp] theorem pack_length (bits : List Bool) : (pack bits).length = bytesFor bits.length := by
  simp [pack]

private theorem takeD_getElem (count : Nat) (bits : List Bool) (i : Nat)
    (h : i < (bits.takeD count false).length) :
    (bits.takeD count false)[i] = bits.getD i false := by
  induction count generalizing bits i with
  | zero => simp at h
  | succ count ih =>
    cases i with
    | zero => cases bits <;> simp [List.takeD]
    | succ i => cases bits <;> simp [List.takeD, ih]

private theorem takeD_eq_append {count : Nat} {bits : List Bool} (h : bits.length ≤ count) :
    bits.takeD count false = bits ++ List.replicate (count - bits.length) false := by
  apply List.ext_getElem
  · simp; omega
  · intro i hleft hright
    rw [takeD_getElem, List.getElem_append, List.getD_eq_getElem?_getD]
    split
    · rename_i hi
      rw [List.getElem?_eq_getElem hi, Option.getD_some]
    · rename_i hi
      rw [List.getElem?_eq_none (by omega), List.getElem_replicate, Option.getD_none]

theorem byteBits_byteOfBits_of_le {bits : List Bool} (h : bits.length ≤ 8) :
    byteBits (byteOfBits bits) = bits ++ List.replicate (8 - bits.length) false := by
  rw [byteBits_byteOfBits, takeD_eq_append h]

theorem unpack_packInto (size : Nat) (bits : List Bool) :
    unpack (packInto size bits) = bits.takeD (8 * size) false := by
  induction size generalizing bits with
  | zero => simp [packInto]
  | succ size ih =>
    rw [packInto, unpack_cons, ih, byteBits_byteOfBits]
    apply List.ext_getElem
    · simp; omega
    · intro i hleft hright
      rw [List.getElem_append]
      split
      · simp only [takeD_getElem]
      · rename_i hlow
        have hlow : 8 ≤ i := by simpa using hlow
        simp only [takeD_getElem, List.takeD_length, List.getD_eq_getElem?_getD,
          List.getElem?_drop]
        congr 2
        omega

theorem unpack_packInto_of_le {size : Nat} {bits : List Bool} (h : bits.length ≤ 8 * size) :
    unpack (packInto size bits) = bits ++ List.replicate (8 * size - bits.length) false := by
  rw [unpack_packInto, takeD_eq_append h]

theorem le_bytesFor (count : Nat) : count ≤ 8 * bytesFor count := by
  unfold bytesFor
  omega

theorem bytesFor_lt (count : Nat) : 8 * bytesFor count < count + 8 := by
  unfold bytesFor
  omega

theorem unpack_pack (bits : List Bool) :
    unpack (pack bits) =
      bits ++ List.replicate (8 * bytesFor bits.length - bits.length) false :=
  unpack_packInto_of_le (le_bytesFor _)

/-- A buffer is the packed form of the bits it starts with as soon as it has no byte in excess and its free bits are zero. -/
theorem eq_pack {data : List Byte} {bits : List Bool} (free : Nat)
    (hbits : unpack data = bits ++ List.replicate free false) (hfree : free < 8) :
    data = pack bits := by
  apply unpack_injective
  rw [hbits, unpack_pack]
  have hlength := congrArg List.length hbits
  simp only [unpack_length, List.length_append, List.length_replicate] at hlength
  have : free = 8 * bytesFor bits.length - bits.length := by
    unfold bytesFor
    omega
  rw [this]

theorem take_unpack_pack (bits : List Bool) : (unpack (pack bits)).take bits.length = bits := by
  rw [unpack_pack, List.take_left]

theorem pack_unpack (data : List Byte) : pack (unpack data) = data :=
  (eq_pack 0 (by simp) (by decide)).symm

theorem pack_append {left : List Bool} (haligned : left.length % 8 = 0) (right : List Bool) :
    pack (left ++ right) = pack left ++ pack right := by
  symm
  apply eq_pack (8 * bytesFor right.length - right.length)
  · rw [unpack_append, unpack_pack, unpack_pack]
    have : 8 * bytesFor left.length - left.length = 0 := by
      unfold bytesFor
      omega
    simp [this]
  · have := bytesFor_lt right.length
    omega

theorem unpack_pack_of_aligned {bits : List Bool} (haligned : bits.length % 8 = 0) :
    unpack (pack bits) = bits := by
  have : 8 * bytesFor bits.length - bits.length = 0 := by
    unfold bytesFor
    omega
  rw [unpack_pack, this, List.replicate_zero, List.append_nil]

/-- The last byte of a packed bit string that does not fill it. -/
theorem exists_partial_byte {bits : List Bool} (hrem : bits.length % 8 ≠ 0) :
    ∃ front last tail, pack bits = front ++ [last] ∧ bits = unpack front ++ tail ∧
      tail.length = bits.length % 8 ∧
      byteBits last = tail ++ List.replicate (8 - tail.length) false := by
  have hsplit := List.take_append_drop (8 * (bits.length / 8)) bits
  have hfront : (bits.take (8 * (bits.length / 8))).length = 8 * (bits.length / 8) := by
    rw [List.length_take]
    omega
  have htail : (bits.drop (8 * (bits.length / 8))).length = bits.length % 8 := by
    rw [List.length_drop]
    omega
  have haligned : (bits.take (8 * (bits.length / 8))).length % 8 = 0 := by omega
  have hone : bytesFor (bits.length % 8) = 1 := by
    unfold bytesFor
    omega
  refine ⟨pack (bits.take (8 * (bits.length / 8))), byteOfBits (bits.drop (8 * (bits.length / 8))),
    bits.drop (8 * (bits.length / 8)), ?_, ?_, htail, ?_⟩
  · conv_lhs => rw [← hsplit, pack_append haligned]
    rw [pack, pack, htail, hone]
    rfl
  · rw [unpack_pack_of_aligned haligned, hsplit]
  · exact byteBits_byteOfBits_of_le (by omega)

/-! ### Overwriting a range -/

/-- `values` written over a list from `offset` on. -/
def splice {α : Type*} (list : List α) (offset : Nat) (values : List α) : List α :=
  list.take offset ++ values ++ list.drop (offset + values.length)

theorem splice_length {α : Type*} {list values : List α} {offset : Nat}
    (hrange : offset + values.length ≤ list.length) :
    (splice list offset values).length = list.length := by
  simp only [splice, List.length_append, List.length_take, List.length_drop]
  omega

theorem splice_getElem {α : Type*} {list values : List α} {offset i : Nat}
    (hrange : offset + values.length ≤ list.length) (hi : i < (splice list offset values).length) :
    (splice list offset values)[i] =
      if h : offset ≤ i ∧ i < offset + values.length then values[i - offset] else
        list.get ⟨i, by rwa [splice_length hrange] at hi⟩ := by
  have htake : (list.take offset).length = offset := by
    rw [List.length_take]
    omega
  simp only [splice, List.append_assoc, List.getElem_append, htake]
  by_cases hbefore : i < offset
  · have hout : ¬(offset ≤ i ∧ i < offset + values.length) := by omega
    simp [hbefore, hout]
  · by_cases hinside : i - offset < values.length
    · have hin : offset ≤ i ∧ i < offset + values.length := by omega
      simp [hbefore, hinside, hin]
    · have hout : ¬(offset ≤ i ∧ i < offset + values.length) := by omega
      have hindex : offset + values.length + (i - offset - values.length) = i := by omega
      simp [hbefore, hinside, hout, hindex]

theorem splice_getElem? {α : Type*} {list values : List α} {offset : Nat}
    (hrange : offset + values.length ≤ list.length) (i : Nat) :
    (splice list offset values)[i]? =
      if offset ≤ i ∧ i < offset + values.length then values[i - offset]? else list[i]? := by
  have htake : (list.take offset).length = offset := by
    rw [List.length_take]
    omega
  simp only [splice, List.append_assoc, List.getElem?_append, htake, List.getElem?_take,
    List.getElem?_drop]
  grind

@[simp] theorem splice_nil {α : Type*} (list : List α) (offset : Nat) :
    splice list offset [] = list := by
  simp [splice]

/-- Two adjacent ranges are overwritten as one. -/
theorem splice_singleton {α : Type*} {list : List α} {offset : Nat} (hin : offset < list.length)
    (value : α) : splice list offset [value] = list.set offset value := by
  rw [splice, List.length_singleton, List.set_eq_take_append_cons_drop, if_pos hin,
    List.append_assoc, List.singleton_append]

theorem splice_splice {α : Type*} {list first second : List α} {offset : Nat}
    (hrange : offset + first.length ≤ list.length) :
    splice (splice list offset first) (offset + first.length) second =
      splice list offset (first ++ second) := by
  have hfront : (list.take offset ++ first).length = offset + first.length := by
    rw [List.length_append, List.length_take]
    omega
  have htake : (splice list offset first).take (offset + first.length) =
      list.take offset ++ first := List.take_left' hfront
  have hdrop : (splice list offset first).drop (offset + first.length + second.length) =
      list.drop (offset + (first ++ second).length) := by
    rw [splice, ← hfront, List.drop_length_add_append, List.drop_drop, hfront, List.length_append,
      Nat.add_assoc]
  rw [splice, htake, hdrop]
  simp only [splice, List.append_assoc]

theorem take_splice {α : Type*} {list values : List α} {offset count : Nat}
    (hcount : offset + values.length ≤ count) (hrange : count ≤ list.length) :
    (splice list offset values).take count = splice (list.take count) offset values := by
  have hfront : (list.take offset ++ values).length = offset + values.length := by
    rw [List.length_append, List.length_take]
    omega
  rw [splice, splice, List.take_append, List.take_of_length_le (by omega), hfront, List.take_take,
    Nat.min_eq_left (by omega), List.drop_take]

/-- Changing part of one byte overwrites the bits of that part. -/
theorem unpack_modify {data : List Byte} {index offset : Nat} {values : List Bool}
    {f : Byte → Byte} (hindex : index < data.length)
    (hf : byteBits (f data[index]) = splice (byteBits data[index]) offset values)
    (hoffset : offset + values.length ≤ 8) :
    unpack (data.modify index f) = splice (unpack data) (8 * index + offset) values := by
  have hlength : (unpack (data.take index)).length = 8 * index := by
    rw [unpack_length, List.length_take, Nat.min_eq_left (by omega)]
  have hdata : unpack data =
      unpack (data.take index) ++ (byteBits data[index] ++ unpack (data.drop (index + 1))) := by
    conv_lhs => rw [← List.take_append_drop index data, List.drop_eq_getElem_cons hindex,
      unpack_append, unpack_cons]
  rw [List.modify_eq_take_cons_drop hindex, unpack_append, unpack_cons, hf]
  simp only [splice]
  have htake : (unpack data).take (8 * index + offset) =
      unpack (data.take index) ++ (byteBits data[index]).take offset := by
    rw [hdata, ← hlength, List.take_length_add_append,
      List.take_append_of_le_length (by rw [byteBits_length]; omega)]
  have hdrop : (unpack data).drop (8 * index + offset + values.length) =
      (byteBits data[index]).drop (offset + values.length) ++
        unpack (data.drop (index + 1)) := by
    rw [hdata, ← hlength, Nat.add_assoc, List.drop_length_add_append,
      List.drop_append_of_le_length (by rw [byteBits_length]; omega)]
  rw [htake, hdrop]
  simp only [List.append_assoc]

theorem unpack_modify_const {data : List Byte} {index : Nat} (hindex : index < data.length)
    (byte : Byte) :
    unpack (data.modify index fun _ => byte) =
      splice (unpack data) (8 * index) (byteBits byte) := by
  have hall : byteBits byte = splice (byteBits data[index]) 0 (byteBits byte) := by
    simp [splice]
  exact unpack_modify (f := fun _ => byte) hindex hall (by simp)

end BitPacking
