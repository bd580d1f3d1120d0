import Mast.BinaryVector.Slice
import Mathlib.Data.Nat.Digits.Defs

/-!
# Text forms of a bit vector

The printers write digits with separators between nibbles, bytes and lines. A text is the list of its characters. Every printer is characterised by the digits it writes: a printed text is a sequence of digits with characters in between that are copied from the separators.
-/

namespace Mast

open BitPacking

namespace BinaryVector

/-- A `std::string`, or the characters a `string_view` covers. -/
abbrev Text := List Char

def binaryNibbles : List Text :=
  ["0000".toList, "0001".toList, "0010".toList, "0011".toList, "0100".toList, "0101".toList,
    "0110".toList, "0111".toList, "1000".toList, "1001".toList, "1010".toList, "1011".toList,
    "1100".toList, "1101".toList, "1110".toList, "1111".toList]

def binaryNibble (value : Byte) : Text := binaryNibbles.getD value.toNat []

/-- The digits of `DataAsHexString`. -/
def hexNibbles : Text :=
  ['0', '1', '2', '3', '4', '5', '6', '7', '8', '9', 'A', 'B', 'C', 'D', 'E', 'F']

def hexNibble (value : Byte) : Char := hexNibbles.getD value.toNat '0'

def leftBitsMask4 (count : Nat) : Byte := [0b0000, 0b1000, 0b1100, 0b1110, 0b1111].getD count 0

structure Separators where
  quad : Text
  octo : Text
  bytesPerLine : Nat
  eol : Text

def Separators.default : Separators := ⟨['_'], [':'], 0, [',']⟩

def Separators.icl : Separators := ⟨['_'], ['_'], 0, []⟩

/-- The variables the printing loops share: two counters and the characters written. -/
structure Printer where
  nibblesCount : Nat
  bytesCount : Nat
  text : Text

namespace Printer

/-- `appendNibble` of `DataAsBinaryString`; `std::endl` writes a line feed. -/
def appendBinaryNibble (s : Separators) (printer : Printer) (nibble : Text) : Printer :=
  if printer.nibblesCount = 1 then
    ⟨2, printer.bytesCount, printer.text ++ s.quad ++ nibble⟩
  else if printer.nibblesCount = 2 then
    if printer.bytesCount + 1 = s.bytesPerLine then
      ⟨1, printer.bytesCount + 1, printer.text ++ s.eol ++ ['\n'] ++ nibble⟩
    else
      ⟨1, printer.bytesCount + 1, printer.text ++ s.octo ++ nibble⟩
  else
    ⟨printer.nibblesCount + 1, printer.bytesCount, printer.text ++ nibble⟩

/-- `appendBits` of `DataAsBinaryString`. -/
def appendBinaryBits (s : Separators) (printer : Printer) (bitsOnLsb : Byte) (bitsCount : Nat) :
    Printer :=
  if bitsCount ≠ 0 then
    printer.appendBinaryNibble s ((binaryNibble bitsOnLsb).take bitsCount)
  else printer

/-- `appendNibble` of `DataAsHexString`. -/
def appendHexNibble (s : Separators) (printer : Printer) (nibble : Char) : Printer :=
  if printer.nibblesCount ≠ 0 ∧ printer.nibblesCount % 2 = 0 then
    if printer.bytesCount + 1 = s.bytesPerLine then
      ⟨1, 0, printer.text ++ s.eol ++ ['\n'] ++ [nibble]⟩
    else if printer.nibblesCount = 4 then
      ⟨5, printer.bytesCount + 1, printer.text ++ s.quad ++ [nibble]⟩
    else if printer.nibblesCount = 8 then
      ⟨1, printer.bytesCount + 1, printer.text ++ s.octo ++ [nibble]⟩
    else
      ⟨printer.nibblesCount + 1, printer.bytesCount + 1, printer.text ++ [nibble]⟩
  else
    ⟨printer.nibblesCount + 1, printer.bytesCount, printer.text ++ [nibble]⟩

/-- The loop of `DataAsBinaryString` over the bytes. -/
def binaryBytes (s : Separators) : List Byte → Nat → Printer → Printer
  | [], _, printer => printer
  | byte :: rest, bitsCount, printer =>
    if bitsCount ≥ 8 then
      binaryBytes s rest (bitsCount - 8)
        ((printer.appendBinaryNibble s (binaryNibble (byte >>> 4))).appendBinaryNibble s
          (binaryNibble (byte &&& 0x0F)))
    else if bitsCount ≥ 4 then
      binaryBytes s rest (bitsCount - 4)
        ((printer.appendBinaryNibble s (binaryNibble (byte >>> 4))).appendBinaryBits s
          (byte &&& 0x0F) (bitsCount - 4))
    else
      binaryBytes s rest bitsCount
        (printer.appendBinaryBits s ((byte >>> 4) &&& 0x0F) bitsCount)

/-- The loop of `DataAsHexString` over the bytes. -/
def hexBytes (s : Separators) : List Byte → Nat → Printer → Printer
  | [], _, printer => printer
  | byte :: rest, bitsCount, printer =>
    if bitsCount ≥ 8 then
      hexBytes s rest (bitsCount - 8)
        ((printer.appendHexNibble s (hexNibble (byte >>> 4))).appendHexNibble s
          (hexNibble (byte &&& 0x0F)))
    else if bitsCount > 4 then
      hexBytes s rest (bitsCount - 4)
        ((printer.appendHexNibble s (hexNibble (byte >>> 4))).appendHexNibble s
          (hexNibble (byte &&& leftBitsMask4 (bitsCount - 4))))
    else
      hexBytes s rest bitsCount
        (printer.appendHexNibble s (hexNibble (byte >>> 4 &&& leftBitsMask4 bitsCount)))

end Printer

def dataAsBinaryString (v : BinaryVector) (s : Separators) (prefixWith0b : Bool) : Text :=
  (Printer.binaryBytes s v.data v.usedBits ⟨0, 0, if prefixWith0b then "0b".toList else []⟩).text

def dataAsHexString (v : BinaryVector) (s : Separators) (prefixWith0x : Bool) : Text :=
  (Printer.hexBytes s v.data v.usedBits ⟨0, 0, if prefixWith0x then "0x".toList else []⟩).text

/-- The bits of an incomplete last nibble, as the two mixed forms print them. -/
def lastQuadBits (v : BinaryVector) : Text :=
  let lastByteBitsCount := v.usedBits % 8
  let lastQuadBitsCount := v.usedBits % 4
  let shiftCount :=
    if lastByteBitsCount < 4 then 8 - lastQuadBitsCount else 4 - lastQuadBitsCount
  let byte := (v.data.getLast?.getD 0 >>> shiftCount) &&& 0x0F
  ((binaryNibble byte).drop (4 - lastQuadBitsCount)).take lastQuadBitsCount

def dataAsMixString (v : BinaryVector) (hexStyleThreshold : Nat) (s : Separators) : Text :=
  if v.usedBits = 0 then []
  else if v.usedBits < hexStyleThreshold then v.dataAsBinaryString s true
  else
    let smartString := v.dataAsHexString s true
    if v.usedBits % 4 ≠ 0 then smartString.dropLast ++ "/b".toList ++ v.lastQuadBits
    else smartString

/-- A number as `operator<<` and `std::to_string` write it. -/
def decimal (value : Nat) : Text := Nat.toDigits 10 value

def dataAsICLBinaryString (v : BinaryVector) : Text :=
  decimal v.usedBits ++ "'b".toList ++ v.dataAsBinaryString .icl false

def dataAsICLMixString (v : BinaryVector) (hexStyleThreshold : Nat) : Text :=
  if v.usedBits = 0 then []
  else if v.usedBits < max hexStyleThreshold 4 then v.dataAsICLBinaryString
  else
    let plainNibblesCount := v.usedBits / 4
    let lastQuadBitsCount := v.usedBits % 4
    let smartString :=
      decimal (plainNibblesCount * 4) ++ "'h".toList ++ v.dataAsHexString .icl false
    let smartString := if lastQuadBitsCount ≠ 0 then smartString.dropLast else smartString
    let smartString :=
      if smartString.getLast? = some '_' then smartString.dropLast else smartString
    if lastQuadBitsCount ≠ 0 then
      smartString ++ ", ".toList ++ decimal lastQuadBitsCount ++ "'b".toList ++ v.lastQuadBits
    else smartString

end BinaryVector

end Mast
