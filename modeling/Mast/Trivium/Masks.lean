import Mast.BinaryVector.Mutate
import Mast.BinaryVector.Printed
import Mast.Lib.Keystream
import Mast.Lib.Outcome

/-!
# Trivium masks

The streamer and the translator cipher with the bits of a generator in a Python module, which gives whole bytes as hexadecimal digits. What is left of the last byte is kept for the next mask. The first bit of the generator is for the first bit that is scanned, which is the last of a vector, so that masks are read backwards.
-/

namespace Mast

open BitPacking BinaryVector Interleaving

namespace Trivium

/-- The fields the streamer and the translator have in common: how far the generator is, `m_Trinvium_Xor_Mask` and `m_Residual_Xor_Mask`. -/
structure Cipher where
  counter : Nat
  xorMask : BinaryVector
  residualXorMask : BinaryVector

def Cipher.start : Cipher := ⟨0, empty, empty⟩

/-- `bits_to_hex_big`: two digits for each byte, its first bit on the left. -/
def bitsToHexBig (bits : List Bool) : Text :=
  (pack bits).flatMap fun byte : Byte => [hexNibble (byte >>> 4), hexNibble (byte &&& 0x0F)]

/-- `get_keystream`; the range of a negative number is empty. -/
def getKeystream (stream : Nat → Bool) (counter : Nat) (nbits : Int) : Text × Nat :=
  (bitsToHexBig (Keystream.slice stream counter nbits.toNat), counter + nbits.toNat)

/-- `TRIVIUM_XOR_MASK`. The number of bits is passed in the format of an `int`. -/
def triviumXorMask (stream : Nat → Bool) (counter xorBits : Nat) :
    Except Fault (BinaryVector × Nat) := do
  let (keystream, counter) := getKeystream stream counter (BitVec.ofNat 32 xorBits).toInt
  let xorMask ← createFromHexString keystream .notFixed .isError
  return (xorMask, counter)

/-- What `NewMask` and `TRIVIUM_ECRYPT` start with: a mask that is long enough, and how many of its bits will be left. -/
def extendMask (stream : Nat → Bool) (cipher : Cipher) (maskBits : Nat) :
    Except Fault (Cipher × Nat) := do
  let xorMask ← build cipher.xorMask (assign cipher.residualXorMask)
  if maskBits > cipher.residualXorMask.usedBits then
    let xorBits := maskBits - cipher.residualXorMask.usedBits
    let xorBytes := xorBits / 8 + if xorBits % 8 ≠ 0 then 1 else 0
    -- the product has 32 bits, and so has the difference, which is below 8
    let (generated, counter) ← triviumXorMask stream cipher.counter (xorBytes * 8 % uint32Size)
    let xorMask ← build xorMask (append generated)
    return (⟨counter, xorMask, cipher.residualXorMask⟩, xorBytes * 8 - xorBits)
  else
    return (⟨cipher.counter, xorMask, cipher.residualXorMask⟩,
      cipher.residualXorMask.usedBits - maskBits)

def newMask (stream : Nat → Bool) (cipher : Cipher) (maskBits : Nat) :
    Except Fault (BinaryVector × Cipher) := do
  let (cipher, residualBits) ← extendMask stream cipher maskBits
  let residual ← cipher.xorMask.slice maskBits residualBits
  let residualXorMask ← build cipher.residualXorMask (assign residual)
  let currentMask ← cipher.xorMask.reverseSlice 0 maskBits
  return (currentMask, { cipher with residualXorMask := residualXorMask })

/-- `operator^`. -/
def bitwiseXor (lhs rhs : BinaryVector) : Except Fault BinaryVector := build lhs.copy (xorAssign rhs)

def triviumEcrypt (stream : Nat → Bool) (cipher : Cipher) (plaintext : BinaryVector) :
    Except Fault (BinaryVector × Cipher) := do
  let plaintextBits := plaintext.usedBits
  let (cipher, residualBits) ← extendMask stream cipher plaintextBits
  let plain ← plaintext.slice 0 plaintextBits
  let mask ← cipher.xorMask.reverseSlice 0 plaintextBits
  let ciphertext ← bitwiseXor plain mask
  let residual ← cipher.xorMask.slice plaintextBits residualBits
  let residualXorMask ← build cipher.residualXorMask (assign residual)
  return (ciphertext, { cipher with residualXorMask := residualXorMask })

/-- A request of the lower level: what it sends, and what the higher level will answer. -/
structure Exchange where
  toSut : BinaryVector
  fromSut : BinaryVector

/-- `TransformationCallback`: what it sends to the higher level, and what it returns to the lower one. -/
def transformationCallback (stream : Nat → Bool) (cipher : Cipher) (exchange : Exchange) :
    Except Fault (Exchange × Cipher) := do
  let (ciphertext, cipher) ← triviumEcrypt stream cipher exchange.toSut
  let higherLevelResult := exchange.fromSut
  let ciphered ← higherLevelResult.slice 0 higherLevelResult.usedBits
  let mask ← cipher.xorMask.reverseSlice 0 higherLevelResult.usedBits
  let lowerLevelResult ← bitwiseXor ciphered mask
  return (⟨ciphertext, lowerLevelResult⟩, cipher)

/-- The masks of a sequence of calls of `NewMask`. -/
def newMasks (stream : Nat → Bool) : Cipher → List Nat → Except Fault (List BinaryVector)
  | _, [] => .ok []
  | cipher, maskBits :: rest => do
    let (mask, cipher) ← newMask stream cipher maskBits
    let masks ← newMasks stream cipher rest
    return mask :: masks

/-- What a sequence of requests sends and returns. -/
def transformationCallbacks (stream : Nat → Bool) :
    Cipher → List Exchange → Except Fault (List Exchange)
  | _, [] => .ok []
  | cipher, exchange :: rest => do
    let (ciphered, cipher) ← transformationCallback stream cipher exchange
    let exchanges ← transformationCallbacks stream cipher rest
    return ciphered :: exchanges

/-! ### The generator -/

theorem bitsToHexBig_eq {bits : List Bool} (haligned : bits.length % 8 = 0) :
    bitsToHexBig bits = hexDigits bits := by
  obtain ⟨bytes, rfl⟩ : ∃ bytes, bits = unpack bytes :=
    ⟨pack bits, (unpack_pack_of_aligned haligned).symm⟩
  rw [bitsToHexBig, pack_unpack]
  induction bytes with
  | nil => rfl
  | cons byte bytes ih =>
    have hrest := ih (by rw [unpack_length]; omega)
    rw [List.flatMap_cons, hrest, unpack_cons, hexNibble_high, hexNibble_low, byteBits_eq_getMsbD]
    rfl

/-- Whole bytes of the stream are read back from their digits. -/
theorem createFromHexString_bitsToHexBig {bits : List Bool} (haligned : bits.length % 8 = 0)
    (hbound : bits.length < uint32Size) :
    createFromHexString (bitsToHexBig bits) .notFixed .isError = .ok (ofBits bits .notFixed) := by
  have hnone : nibblePadding bits.length = [] := by
    have hnibbles : (4 - bits.length % 4) % 4 = 0 := by omega
    rw [nibblePadding, hnibbles, List.replicate_zero]
  rw [bitsToHexBig_eq haligned, createFromHexString_interleaved (Interleaved.refl _), hnone,
    List.append_nil, Nat.mod_eq_of_lt hbound]
  rfl

end Trivium

end Mast
