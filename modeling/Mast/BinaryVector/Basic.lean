import Mast.Lib.BitPacking
import Mathlib.Data.List.ModifyLast
import Mathlib.Tactic.IntervalCases

/-!
# Bit vectors of the scan model

The data of `BinaryVector`, its constructors and the tables of masks its operations share. Bytes are stored most significant bit first and the bits of the last byte are left aligned. `ofBits` is the vector that holds given bits in the intended representation; `WellFormed` says that a vector has that representation.
-/

namespace Mast

open BitPacking

/-- What a C++ call can end with instead of a result. The last case stands for behaviour the language leaves undefined (access outside of a buffer). -/
inductive Fault
  | invalidArgument (message : String)
  | logicError (message : String)
  | outOfRange (message : String)
  | runtimeError (message : String)
  | undefinedBehaviour
  deriving DecidableEq, Repr

inductive BitsAlignment
  | right
  | left
  deriving DecidableEq, Repr

/-- Tells whether the number of bits of a vector can change once it is constructed. -/
inductive SizeProperty
  | notFixed
  | fixed
  | fixedOnCopy
  deriving DecidableEq, Repr

/-- The number of values of `uint32_t`, the type of bit counts and offsets. -/
def uint32Size : Nat := 2 ^ 32

structure BinaryVector where
  data : List Byte
  usedBits : Nat
  sizeProperty : SizeProperty
  deriving DecidableEq, Repr

/-- A member function that may change the vector. A call that throws keeps what it wrote before. -/
abbrev Mutation := EStateM Fault BinaryVector

/-! ### Masks -/

/-- `LEFT_BITS_MASK_8`: keeps the most significant bits of a byte. -/
def leftBitsMask8 (count : Nat) : Byte :=
  [0b00000000, 0b10000000, 0b11000000, 0b11100000, 0b11110000, 0b11111000, 0b11111100,
    0b11111110, 0b11111111].getD count 0

/-- `LEFT_BITS_CLEAR_MASK_8`: clears the most significant bits of a byte. -/
def leftBitsClearMask8 (count : Nat) : Byte :=
  [0b11111111, 0b01111111, 0b00111111, 0b00011111, 0b00001111, 0b00000111, 0b00000011,
    0b00000001, 0b00000000].getD count 0

/-- `RIGHT_BITS_MASK_8`: keeps the least significant bits of a byte. -/
def rightBitsMask8 (count : Nat) : Byte :=
  [0b00000000, 0b00000001, 0b00000011, 0b00000111, 0b00001111, 0b00011111, 0b00111111,
    0b01111111, 0b11111111].getD count 0

/-- `BIT_MASK_8`: selects one bit of a byte, counted from the left. -/
def bitMask8 (offset : Nat) : Byte :=
  [0b10000000, 0b01000000, 0b00100000, 0b00010000, 0b00001000, 0b00000100, 0b00000010,
    0b00000001].getD offset 0

theorem byteBits_leftBitsMask8 {count : Nat} (hcount : count ≤ 8) :
    byteBits (leftBitsMask8 count) =
      List.replicate count true ++ List.replicate (8 - count) false := by
  interval_cases count <;> rfl

theorem byteBits_and_leftBitsMask8 (byte : Byte) {count : Nat} (hcount : count ≤ 8) :
    byteBits (byte &&& leftBitsMask8 count) =
      (byteBits byte).take count ++ List.replicate (8 - count) false := by
  rw [byteBits_and, byteBits_leftBitsMask8 hcount]
  apply List.ext_getElem
  · simp
    omega
  · intro i hleft hright
    by_cases hlow : i < count
    · have hi : i < 8 := by omega
      simp [hlow, hi]
    · simp [List.getElem_append, hlow]

namespace BinaryVector

def empty : BinaryVector := ⟨[], 0, .notFixed⟩

def isEmpty (v : BinaryVector) : Bool := v.data.isEmpty

def bitsCount (v : BinaryVector) : Nat := v.usedBits

def bytesCount (v : BinaryVector) : Nat := v.data.length

def hasFixedSize (v : BinaryVector) : Bool := v.sizeProperty != .notFixed

/-- The check every mutator uses; unlike `hasFixedSize` it does not see `fixedOnCopy`. -/
def fixedSize (v : BinaryVector) : Bool := v.sizeProperty == .fixed

/-- `IsNegative`: the first bit of a vector that must not be empty. -/
def isNegative (v : BinaryVector) : Except Fault Bool :=
  match v.data with
  | [] => .error .undefinedBehaviour
  | byte :: _ => .ok (byte &&& 0x80 ≠ 0)

def copiedSizeProperty : SizeProperty → SizeProperty
  | .fixedOnCopy => .fixedOnCopy
  | _ => .notFixed

/-- `BytesCountFromBitsCount`: the sum is taken in 32 bits. -/
def bytesCountFromBitsCount (bitsCount : Nat) : Nat := (bitsCount + 7) % uint32Size / 8

/-- The `CHECK_` and `THROW_` macros: a fault unless a condition holds. -/
def check (condition : Prop) [Decidable condition] (fault : Fault) : Mutation Unit :=
  if condition then pure () else throw fault

/-- Runs a computation that does not touch the vector. -/
def orThrow {α : Type} (result : Except Fault α) : Mutation α :=
  match result with
  | .ok value => pure value
  | .error fault => throw fault

/-- `MaskLastByte`; `m_data.back()` of an empty buffer is undefined. -/
def maskLastByte : Mutation Unit := do
  let v ← get
  let bitsOnLastByte := v.usedBits % 8
  if bitsOnLastByte ≠ 0 then
    check (v.data ≠ []) .undefinedBehaviour
    set { v with data := v.data.modifyLast (· &&& leftBitsMask8 bitsOnLastByte) }

/-- The vector a local object holds at the end of a function that builds and returns it. -/
def build (start : BinaryVector) (mutation : Mutation Unit) : Except Fault BinaryVector :=
  match mutation.run start with
  | .ok _ v => .ok v
  | .error fault _ => .error fault

/-! ### Constructors -/

/-- `BinaryVector(bitsCount, fillPattern, sizeProperty)`. -/
def ofFillPattern (bitsCount : Nat) (fillPattern : Byte) (sizeProperty : SizeProperty) :
    Except Fault BinaryVector :=
  build ⟨List.replicate (bytesCountFromBitsCount bitsCount) fillPattern, bitsCount, sizeProperty⟩
    maskLastByte

/-- `BinaryVector(data, bitsCount, sizeProperty)`: the data are truncated or completed with zeros. -/
def ofData (data : List Byte) (bitsCount : Nat) (sizeProperty : SizeProperty) :
    Except Fault BinaryVector :=
  build ⟨data.takeD (bytesCountFromBitsCount bitsCount) 0, bitsCount, sizeProperty⟩ maskLastByte

/-- The copy constructor; the move constructor gives its target the same value. -/
def copy (rhs : BinaryVector) : BinaryVector :=
  ⟨rhs.data, rhs.usedBits, copiedSizeProperty rhs.sizeProperty⟩

/-- What a vector is after its content has been moved to another one. -/
def movedFrom : BinaryVector := empty

/-! ### The intended representation -/

def bits (v : BinaryVector) : List Bool := (unpack v.data).take v.usedBits

def ofBits (bits : List Bool) (sizeProperty : SizeProperty) : BinaryVector :=
  ⟨pack bits, bits.length, sizeProperty⟩

/-- The buffer has the bytes its bits need, no more and no less. -/
def ExactBytes (v : BinaryVector) : Prop := v.data.length = bytesFor v.usedBits

/-- A vector as the program can hold one: its count is a `uint32_t` and its buffer has the size that count calls for. -/
structure Stored (v : BinaryVector) : Prop where
  exactBytes : v.ExactBytes
  usedBits_lt : v.usedBits < uint32Size

/-- The representation invariant: no byte in excess, and the bits of the last byte past the used ones are zero. -/
structure WellFormed (v : BinaryVector) : Prop where
  exactBytes : v.ExactBytes
  unusedZero : ∀ bit ∈ (unpack v.data).drop v.usedBits, bit = false

instance (v : BinaryVector) : Decidable v.ExactBytes :=
  inferInstanceAs (Decidable (_ = _))

instance (v : BinaryVector) : Decidable v.WellFormed :=
  decidable_of_iff (v.ExactBytes ∧ ∀ bit ∈ (unpack v.data).drop v.usedBits, bit = false)
    ⟨fun h => ⟨h.1, h.2⟩, fun h => ⟨h.1, h.2⟩⟩

@[simp] theorem ofBits_usedBits (bits : List Bool) (p : SizeProperty) :
    (ofBits bits p).usedBits = bits.length := rfl

@[simp] theorem ofBits_sizeProperty (bits : List Bool) (p : SizeProperty) :
    (ofBits bits p).sizeProperty = p := rfl

@[simp] theorem ofBits_data (bits : List Bool) (p : SizeProperty) :
    (ofBits bits p).data = pack bits := rfl

@[simp] theorem bits_ofBits (l : List Bool) (p : SizeProperty) : (ofBits l p).bits = l :=
  take_unpack_pack l

theorem ofBits_wellFormed (l : List Bool) (p : SizeProperty) : (ofBits l p).WellFormed where
  exactBytes := pack_length l
  unusedZero := by
    rw [ofBits_data, ofBits_usedBits, unpack_pack, List.drop_left]
    intro bit hbit
    exact List.eq_of_mem_replicate hbit

theorem ExactBytes.bits_length {v : BinaryVector} (hexact : v.ExactBytes) :
    v.bits.length = v.usedBits := by
  have hle := le_bytesFor v.usedBits
  rw [bits, List.length_take, unpack_length, hexact]
  omega

/-- A bit is found in its byte, counted from the most significant one. -/
theorem ExactBytes.bits_getD {v : BinaryVector} (hexact : v.ExactBytes) {i : Nat}
    (hi : i < v.usedBits) :
    v.bits.getD i false = (v.data.getD (i / 8) 0).getMsbD (i % 8) := by
  have hlength := hexact.bits_length
  rw [List.getD_eq_getElem?_getD, List.getElem?_eq_getElem (by omega), Option.getD_some]
  simp only [bits, List.getElem_take, unpack_getElem]

theorem first_bit (byte : Byte) : decide (byte &&& 0x80 ≠ 0) = byte.getMsbD 0 := by
  revert byte
  decide +kernel

theorem isNegative_eq {v : BinaryVector} (hexact : v.ExactBytes) (hpos : 0 < v.usedBits) :
    v.isNegative = .ok (v.bits.getD 0 false) := by
  obtain ⟨byte, rest, hdata⟩ : ∃ byte rest, v.data = byte :: rest := by
    apply List.exists_cons_of_ne_nil
    intro hnone
    rw [ExactBytes, hnone, List.length_nil, bytesFor] at hexact
    omega
  rw [hexact.bits_getD hpos]
  simp only [isNegative, hdata, first_bit]
  rfl

theorem WellFormed.eq_ofBits {v : BinaryVector} (hv : v.WellFormed) :
    v = ofBits v.bits v.sizeProperty := by
  have hlength := hv.exactBytes.bits_length
  have hdata : v.data = pack v.bits := by
    apply eq_pack (8 * bytesFor v.usedBits - v.usedBits)
    · rw [bits]
      conv_lhs => rw [← List.take_append_drop v.usedBits (unpack v.data)]
      congr 1
      rw [List.eq_replicate_iff]
      refine ⟨?_, hv.unusedZero⟩
      rw [List.length_drop, unpack_length, hv.exactBytes]
    · have := bytesFor_lt v.usedBits
      omega
  obtain ⟨data, usedBits, sizeProperty⟩ := v
  simp only [ofBits, BinaryVector.mk.injEq, and_true]
  exact ⟨hdata, hlength.symm⟩

theorem wellFormed_iff {v : BinaryVector} :
    v.WellFormed ↔ ∃ l p, v = ofBits l p :=
  ⟨fun hv => ⟨_, _, hv.eq_ofBits⟩, fun ⟨l, p, hv⟩ => hv ▸ ofBits_wellFormed l p⟩

/-! ### Checks -/

def Rejects {α : Type} (mutation : Mutation α) (v : BinaryVector) : Prop :=
  ∃ fault, fault ≠ .undefinedBehaviour ∧ mutation.run v = .error fault v

theorem Rejects.bind {α β : Type} {mutation : Mutation α} {v : BinaryVector}
    (hrejects : Rejects mutation v) (next : α → Mutation β) : Rejects (mutation >>= next) v := by
  obtain ⟨fault, hfault, hrun⟩ := hrejects
  exact ⟨fault, hfault, by rw [EStateM.run_bind, hrun]⟩

/-- A mutation that starts with a successful check is rejected as what follows is. -/
theorem Rejects.of_run {α β : Type} {first : Mutation α} {a : α} {v : BinaryVector}
    {next : α → Mutation β} (hfirst : first.run v = .ok a v) (hrejects : Rejects (next a) v) :
    Rejects (first >>= next) v := by
  obtain ⟨fault, hfault, hrun⟩ := hrejects
  exact ⟨fault, hfault, by rw [EStateM.run_bind, hfirst, ← hrun]⟩

theorem check_run {condition : Prop} [Decidable condition] (h : condition) (fault : Fault)
    (v : BinaryVector) : (check condition fault).run v = .ok () v := by
  rw [check, if_pos h]
  rfl

theorem check_rejects {condition : Prop} [Decidable condition] (h : ¬condition) {fault : Fault}
    (hfault : fault ≠ .undefinedBehaviour) (v : BinaryVector) :
    Rejects (check condition fault) v :=
  ⟨fault, hfault, by rw [check, if_neg h]; rfl⟩

@[simp] theorem orThrow_ok {α : Type} (value : α) (v : BinaryVector) :
    (orThrow (.ok value)).run v = .ok value v := rfl

theorem orThrow_rejects {α : Type} {fault : Fault} (hfault : fault ≠ .undefinedBehaviour)
    (v : BinaryVector) : Rejects (orThrow (.error fault : Except Fault α)) v :=
  ⟨fault, hfault, rfl⟩

/-! ### Masking the last byte -/

/-- Whatever the last byte held past the used bits, masking it restores the intended representation. -/
theorem maskLastByte_run {v : BinaryVector} (hexact : v.ExactBytes) :
    maskLastByte.run v = .ok () (ofBits v.bits v.sizeProperty) := by
  have hlength := hexact.bits_length
  by_cases haligned : v.usedBits % 8 = 0
  · have hall : v.bits = unpack v.data := by
      apply List.take_of_length_le
      rw [unpack_length, hexact, bytesFor]
      omega
    have hself : ofBits v.bits v.sizeProperty = v := by
      rw [ofBits, hlength, hall, pack_unpack]
    simp [maskLastByte, haligned, hself]
  · have hne : v.data ≠ [] := by
      intro hempty
      rw [ExactBytes, hempty, bytesFor, List.length_nil] at hexact
      omega
    obtain ⟨front, last, hdata⟩ := (List.eq_nil_or_concat' v.data).resolve_left hne
    have hfront : v.usedBits = 8 * front.length + v.usedBits % 8 := by
      rw [ExactBytes, hdata, bytesFor, List.length_append, List.length_singleton] at hexact
      omega
    have hmasked : front ++ [last &&& leftBitsMask8 (v.usedBits % 8)] = pack v.bits := by
      refine eq_pack (8 - v.usedBits % 8) ?_ (by omega)
      have hbits : v.bits = unpack front ++ (byteBits last).take (v.usedBits % 8) := by
        rw [bits, hdata, ← take_unpack_concat, ← hfront]
      rw [hbits, unpack_append, unpack_cons, unpack_nil, List.append_nil,
        byteBits_and_leftBitsMask8 _ (by omega), List.append_assoc]
    rw [maskLastByte, EStateM.run_bind, EStateM.run_get]
    simp only [ne_eq, haligned, not_false_eq_true, if_true, EStateM.run_bind, check_run hne]
    rw [EStateM.run_set, hdata, List.modifyLast_concat, hmasked, ofBits, hlength]

/-- The number of bytes a constructor allocates is the expected one unless its 32 bits sum wraps. -/
theorem bytesCountFromBitsCount_eq {bitsCount : Nat} (hbound : bitsCount + 7 < uint32Size) :
    bytesCountFromBitsCount bitsCount = bytesFor bitsCount := by
  rw [bytesCountFromBitsCount, Nat.mod_eq_of_lt hbound, bytesFor]

theorem build_maskLastByte {v : BinaryVector} (hexact : v.ExactBytes) :
    build v maskLastByte = .ok (ofBits v.bits v.sizeProperty) := by
  simp only [build, maskLastByte_run hexact]

theorem ofFillPattern_eq {bitsCount : Nat} (hbound : bitsCount + 7 < uint32Size)
    (fillPattern : Byte) (p : SizeProperty) :
    ∃ l, l.length = bitsCount ∧ ofFillPattern bitsCount fillPattern p = .ok (ofBits l p) := by
  have hexact : ExactBytes ⟨List.replicate (bytesCountFromBitsCount bitsCount) fillPattern,
      bitsCount, p⟩ := by
    rw [ExactBytes, List.length_replicate, bytesCountFromBitsCount_eq hbound]
  exact ⟨_, hexact.bits_length, build_maskLastByte hexact⟩

theorem ofData_eq {data : List Byte} {bitsCount : Nat} (hbound : bitsCount + 7 < uint32Size)
    (p : SizeProperty) :
    ofData data bitsCount p =
      .ok (ofBits ((unpack (data.takeD (bytesFor bitsCount) 0)).take bitsCount) p) := by
  have hexact : ExactBytes ⟨data.takeD (bytesFor bitsCount) 0, bitsCount, p⟩ :=
    List.takeD_length _ _ _
  rw [ofData, bytesCountFromBitsCount_eq hbound, build_maskLastByte hexact]
  rfl

end BinaryVector

end Mast
