import Mast.BinaryVector.Compare
import Mast.BinaryVector.Mutate

/-!
# Registers of the scan model

From here on a bit vector is the list of its bits. What the scan model does to vectors other than comparing and appending them goes through the operations of `BinaryVector` on the vector that holds those bits.

A register remembers what it should send next, what it sent last and what it received. Its vectors are constructed with a fixed size, so they all have the length of the bypass sequence unless the register is a black box.
-/

namespace Mast

/-- A `BinaryVector` by its bits. -/
abbrev Bits := List Bool

namespace Bits

def toVector (bits : Bits) : BinaryVector := .ofBits bits .notFixed

/-- `Slice(firstBitOffset, bitsCount)`. -/
def slice (bits : Bits) (firstBitOffset bitsCount : Nat) : Except Fault Bits :=
  (bits.toVector.slice firstBitOffset bitsCount).map BinaryVector.bits

/-- `SetSlice(startOffset, value)`. The byte that may be read behind the value is masked out, so any byte stands for it. -/
def setSlice (bits : Bits) (startOffset : Nat) (value : Bits) : Except Fault Bits :=
  (BinaryVector.build bits.toVector (BinaryVector.setSlice [0] startOffset value.toVector)).map
    BinaryVector.bits

/-- `CompareEqualTo` with a mask whose ones are the bits to compare; an empty mask compares them all. -/
def compareEqualTo (bits rhs dontCareMask : Bits) : Except Fault Bool :=
  if dontCareMask = [] then .ok (bits == rhs)
  else if bits.length ≠ rhs.length then .ok false
  else if bits.length = 0 then .ok true
  else if dontCareMask.length ≠ bits.length then
    .error (.logicError "BinaryVectors must have same size")
  else
    .ok ((List.zipWith (fun different care => different && care)
      (List.zipWith xor bits rhs) dontCareMask).all (!·))

theorem slice_eq {bits : Bits} {firstBitOffset bitsCount : Nat} (hbits : bits.length < uint32Size)
    (hrange : firstBitOffset + bitsCount ≤ bits.length) :
    bits.slice firstBitOffset bitsCount = .ok ((bits.drop firstBitOffset).take bitsCount) := by
  have hslice := BinaryVector.slice_eq (BinaryVector.ofBits_wellFormed bits .notFixed).exactBytes
    hbits hrange
  rw [BinaryVector.bits_ofBits] at hslice
  rw [slice, toVector, hslice]
  exact congrArg Except.ok (BinaryVector.bits_ofBits _ _)

theorem setSlice_eq {bits value : Bits} {startOffset : Nat} (hbits : bits.length < uint32Size)
    (hvalue : 0 < value.length) (hrange : startOffset + value.length ≤ bits.length) :
    bits.setSlice startOffset value = .ok (BitPacking.splice bits startOffset value) := by
  have hset := BinaryVector.setSlice_ofBits (p := .notFixed)
    (BinaryVector.ofBits_wellFormed value .notFixed).exactBytes hvalue hrange hbits
    (.inl (List.cons_ne_nil 0 []))
  rw [BinaryVector.bits_ofBits] at hset
  rw [setSlice, BinaryVector.build, toVector, toVector, hset]
  exact congrArg Except.ok (BinaryVector.bits_ofBits _ _)

end Bits

inductive BitsOrdering
  | downto
  | upto
  | undefined
  deriving DecidableEq, Repr

/-- `mast::Register`. The pending count of the node tells that the register is pending for write; `fixedSize` is the size its constructor fixes for all its vectors. -/
structure Register where
  name : String
  pendingRead : Bool
  pendingCount : Nat
  iRunLoopCount : Nat
  holdValue : Bool
  mustCheckExpected : Bool
  isBlackBox : Bool
  bitsOrdering : BitsOrdering
  mismatches : Nat
  nextToSut : Bits
  lastToSut : Bits
  lastFromSut : Bits
  lastReadFromSut : Bits
  expectedFromSut : Bits
  bypass : Bits
  dontCareMask : Bits
  fixedSize : Nat
  nextToSut_length : isBlackBox = false → nextToSut.length = fixedSize
  lastToSut_length : isBlackBox = false → lastToSut.length = fixedSize
  lastFromSut_length : isBlackBox = false → lastFromSut.length = fixedSize
  expectedFromSut_length : isBlackBox = false → expectedFromSut.length = fixedSize
  bypass_length : isBlackBox = false → bypass.length = fixedSize

namespace Register

def create (name : String) (bypassSequence : Bits) (holdValue : Bool)
    (bitsOrdering : BitsOrdering) : Register where
  name := name
  pendingRead := false
  pendingCount := 0
  iRunLoopCount := 0
  holdValue := holdValue
  mustCheckExpected := false
  isBlackBox := false
  bitsOrdering := bitsOrdering
  mismatches := 0
  nextToSut := bypassSequence
  lastToSut := bypassSequence
  lastFromSut := bypassSequence
  lastReadFromSut := List.replicate bypassSequence.length false
  expectedFromSut := bypassSequence
  bypass := bypassSequence
  dontCareMask := []
  fixedSize := bypassSequence.length
  nextToSut_length _ := rfl
  lastToSut_length _ := rfl
  lastFromSut_length _ := rfl
  expectedFromSut_length _ := rfl
  bypass_length _ := rfl

variable (r : Register)

def bitsCount : Nat := r.bypass.length

def isPendingForWrite : Bool := r.pendingCount ≠ 0

def isPending : Bool := r.pendingRead || r.isPendingForWrite

/-- What a parent counts a register for. -/
def pendings : Nat := if r.isPending then 1 else 0

/-! ### Assignments to the vectors of a register -/

/-- The condition for an assignment to a vector of the register not to throw. -/
def Fits (sequence : Bits) : Prop := r.isBlackBox = true ∨ sequence.length = r.fixedSize

instance (sequence : Bits) : Decidable (r.Fits sequence) := inferInstanceAs (Decidable (_ ∨ _))

variable {r} in
theorem Fits.length {sequence : Bits} (hfits : r.Fits sequence) :
    r.isBlackBox = false → sequence.length = r.fixedSize := by
  intro hbox
  rcases hfits with hblack | hlength
  · rw [hbox] at hblack
    cases hblack
  · exact hlength

/-- What `CHECK_FIXED_SIZE_ASSIGNMENT` throws. -/
def sizeFault (sequence : Bits) : Fault :=
  .logicError ("BinaryVector size has been fixed to " ++ toString r.fixedSize ++
    " bit(s); Cannot assign " ++ toString sequence.length ++ " bit(s)")

/-- `SetToSut`; with a hold value the bypass sequence follows. -/
def setToSut (sequence : Bits) : Except Fault Register :=
  if h : r.Fits sequence then
    .ok { r with
      nextToSut := sequence
      bypass := if r.holdValue then sequence else r.bypass
      nextToSut_length := h.length
      bypass_length := fun hbox => by
        split
        · exact h.length hbox
        · exact r.bypass_length hbox }
  else
    .error (r.sizeFault sequence)

def setBypass (sequence : Bits) : Except Fault Register :=
  if h : r.Fits sequence then
    .ok { r with bypass := sequence, bypass_length := h.length }
  else
    .error (r.sizeFault sequence)

/-- `SetExpectedFromSut(sequence, dontCareMask)`. -/
def setExpectedFromSut (sequence dontCareMask : Bits) : Except Fault Register :=
  if dontCareMask ≠ [] ∧ dontCareMask.length ≠ sequence.length then
    .error (.invalidArgument "Don't care mask must have same size as Register")
  else if h : r.Fits sequence then
    .ok { r with
      expectedFromSut := sequence
      dontCareMask := dontCareMask
      expectedFromSut_length := h.length }
  else
    .error (r.sizeFault sequence)

def setFromSut (sequence : Bits) : Except Fault Register :=
  let mismatch : Except Fault Bool :=
    if r.mustCheckExpected then
      (sequence.compareEqualTo r.expectedFromSut r.dontCareMask).map (!·)
    else .ok false
  match mismatch with
  | .error fault => .error fault
  | .ok mismatch =>
    if h : r.Fits sequence then
      .ok { r with
        lastReadFromSut := if r.pendingRead then sequence else r.lastReadFromSut
        mismatches := if mismatch then (r.mismatches + 1) % uint32Size else r.mismatches
        lastFromSut := sequence
        lastFromSut_length := h.length }
    else
      .error (r.sizeFault sequence)

/-- `UpdateLastToSut`: both vectors have the same fixed size. -/
def updateLastToSut : Register :=
  { r with lastToSut := r.nextToSut, lastToSut_length := r.nextToSut_length }

def resetPending : Register := { r with pendingRead := false, pendingCount := 0 }

def setPending : Register := { r with pendingCount := 1 }

def setPendingForRead (pendingForRead : Bool) : Register := { r with pendingRead := pendingForRead }

def setPendingForWrite (pendingForWrite : Bool) : Register :=
  { r with pendingCount := if pendingForWrite then 1 else 0 }

def setCheckExpected (checkExpected : Bool) : Register :=
  { r with mustCheckExpected := checkExpected }

end Register

end Mast
