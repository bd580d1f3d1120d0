import Mast.BinaryVector.Mutate

/-!
# Vectors from text

The factories that read binary, hexadecimal, decimal and mixed texts. `createFromString` splits its text into chunks of one base, each with an optional size and inversion, and appends what they encode. Texts are never null here: the check on the pointer of the `string_view` is left out.
-/

namespace Mast

open BitPacking

/-- Tells what an `x` in a text stands for. -/
inductive DontCare
  | isError
  | isZero
  | isOne
  deriving DecidableEq, Repr

inductive NumberBase
  | undefined
  | binary
  | hexadecimal
  | decimal
  | octal
  deriving DecidableEq, Repr

namespace BinaryVector

/-! ### Binary texts -/

def isIgnored (c : Char) : Bool :=
  c ∈ ['-', '_', ':', '|', ',', '\'', '\t', '\n', ' ', '\x00', '/', '\\']

def isBlank (c : Char) : Bool := c ∈ ['\n', '\t', ' ']

/-- Removes the prefix of a base: a zero followed by one of two letters. -/
def removeBasePrefix (lower upper : Char) : Text → Text
  | '0' :: letter :: rest => if letter = lower ∨ letter = upper then rest else '0' :: letter :: rest
  | text => text

/-- The variables of the parsing loops: the vector built so far and its incomplete last byte. -/
structure Reader where
  data : List Byte
  usedBits : Nat
  nextByte : Byte
  bitCount : Nat

def Reader.start : Reader := ⟨[], 0, 0, 0⟩

/-- `appendBit` of `CreateFromBinaryString`. -/
def Reader.appendBit (reader : Reader) (bit : Byte) : Reader :=
  let nextByte := reader.nextByte <<< 1 ||| bit
  if reader.bitCount + 1 = 8 then
    ⟨reader.data ++ [nextByte], (reader.usedBits + 8) % uint32Size, 0, 0⟩
  else { reader with nextByte := nextByte, bitCount := reader.bitCount + 1 }

def readBinaryChar (dontCare : DontCare) (previousChar nextChar : Char) (reader : Reader) :
    Except Fault Reader :=
  if nextChar = '0' then .ok (reader.appendBit 0)
  else if nextChar = '1' then .ok (reader.appendBit 1)
  else if nextChar = 'x' ∨ nextChar = 'X' then
    match dontCare with
    | .isError => .error (.invalidArgument
        "CreateFromBinaryString found unexpected \"don't care character\"")
    | .isZero => .ok (reader.appendBit 0)
    | .isOne => .ok (reader.appendBit 1)
  else if isIgnored nextChar then .ok reader
  else if nextChar = 'b' ∨ nextChar = 'B' then
    if previousChar ≠ '\\' ∧ previousChar ≠ '/' then
      .error (.invalidArgument
        "CreateFromBinaryString support only constructions: '\\b' and '/b'")
    else .ok reader
  else .error (.invalidArgument
    "CreateFromBinaryString only support characters in '01,':|_-\\x20\\t\\n'")

def readBinaryChars (dontCare : DontCare) : Char → Text → Reader → Except Fault Reader
  | _, [], reader => .ok reader
  | previousChar, nextChar :: rest, reader =>
    match readBinaryChar dontCare previousChar nextChar reader with
    | .ok reader => readBinaryChars dontCare nextChar rest reader
    | .error fault => .error fault

def createFromBinaryString (text : Text) (sizeProperty : SizeProperty) (dontCare : DontCare) :
    Except Fault BinaryVector :=
  let digits := removeBasePrefix 'b' 'B' (text.dropWhile isBlank)
  match readBinaryChars dontCare '\x00' digits .start with
  | .error fault => .error fault
  | .ok reader =>
    if reader.bitCount ≠ 0 then
      .ok ⟨reader.data ++ [reader.nextByte <<< (8 - reader.bitCount)],
        (reader.usedBits + reader.bitCount) % uint32Size, sizeProperty⟩
    else .ok ⟨reader.data, reader.usedBits, sizeProperty⟩

/-! ### Hexadecimal texts -/

def hexDigitValue (c : Char) : Option Byte :=
  match c with
  | '0' => some 0x0
  | '1' => some 0x1
  | '2' => some 0x2
  | '3' => some 0x3
  | '4' => some 0x4
  | '5' => some 0x5
  | '6' => some 0x6
  | '7' => some 0x7
  | '8' => some 0x8
  | '9' => some 0x9
  | 'A' | 'a' => some 0xa
  | 'B' | 'b' => some 0xb
  | 'C' | 'c' => some 0xc
  | 'D' | 'd' => some 0xd
  | 'E' | 'e' => some 0xe
  | 'F' | 'f' => some 0xf
  | _ => none

/-- What `CreateFromHexString` does with the value of a digit. -/
def Reader.appendNibble (reader : Reader) (value : Byte) : Reader :=
  let nextByte := reader.nextByte ||| value
  if reader.bitCount + 4 = 8 then
    ⟨reader.data ++ [nextByte], (reader.usedBits + 8) % uint32Size, 0, 0⟩
  else { reader with nextByte := nextByte <<< 4, bitCount := reader.bitCount + 4 }

def readHexChar (dontCare : DontCare) (previousChar nextChar : Char) (reader : Reader) :
    Except Fault Reader :=
  match hexDigitValue nextChar with
  | some value => .ok (reader.appendNibble value)
  | none =>
    if isIgnored nextChar then .ok reader
    else if nextChar = 'x' ∨ nextChar = 'X' then
      if previousChar = '\\' ∨ previousChar = '/' then .ok reader
      else
        match dontCare with
        | .isError => .error (.invalidArgument
            "CreateFromHexString found unexpected \"don't care character\"")
        | .isZero => .ok (reader.appendNibble 0x0)
        | .isOne => .ok (reader.appendNibble 0xF)
    else .error (.invalidArgument
      "CreateFromHexString only support characters in '01,':|_-\\x20\\t\\n/\\'")

def readHexChars (dontCare : DontCare) : Char → Text → Reader → Except Fault Reader
  | _, [], reader => .ok reader
  | previousChar, nextChar :: rest, reader =>
    match readHexChar dontCare previousChar nextChar reader with
    | .ok reader => readHexChars dontCare nextChar rest reader
    | .error fault => .error fault

/-- `CreateFromHexString`; the character after a text of blanks only is taken not to be a blank. -/
def createFromHexString (text : Text) (sizeProperty : SizeProperty) (dontCare : DontCare) :
    Except Fault BinaryVector :=
  let digits := removeBasePrefix 'x' 'X' (text.dropWhile isBlank)
  match readHexChars dontCare '\x00' digits .start with
  | .error fault => .error fault
  | .ok reader =>
    if reader.bitCount ≠ 0 then
      .ok ⟨reader.data ++ [reader.nextByte], (reader.usedBits + reader.bitCount) % uint32Size,
        sizeProperty⟩
    else .ok ⟨reader.data, reader.usedBits, sizeProperty⟩

/-! ### Decimal texts -/

def trimLeft (text : Text) : Text := text.dropWhile fun c => c = ' ' ∨ c = '\t'

def decDigitValue (c : Char) : Option Nat :=
  if '0' ≤ c ∧ c ≤ '9' then some (c.toNat - '0'.toNat) else none

def uint64Size : Nat := 2 ^ 64

/-- The variables of the loop of `CreateFromDecString`. -/
structure DecReader where
  bitsCount : Nat
  parsedDigits : Bool
  hasSize : Bool
  nextMustBeD : Bool
  value : Nat

/-- One digit after the ones read so far; a 64 bits overflow is an error. -/
def DecReader.appendDigit (reader : DecReader) (digit : Nat) : Except Fault DecReader :=
  if reader.value > (uint64Size - 1) / 10 then
    .error (.outOfRange "Parsed value is out of uint64_t range")
  else
    let value := reader.value * 10
    if (value + digit) % uint64Size < value then
      .error (.outOfRange "Parsed value is out of uint64_t range")
    else .ok { reader with parsedDigits := true, value := value + digit }

def readDecChar (text : Text) (nextChar : Char) (reader : DecReader) : Except Fault DecReader :=
  let shown := String.ofList text
  if reader.nextMustBeD ∧ nextChar ≠ 'd' ∧ nextChar ≠ 'D' then
    .error (.invalidArgument ("Unexpected character '" ++ String.ofList [nextChar] ++
      "'after quote (') found while parsing decimal number: " ++ shown))
  else
    match decDigitValue nextChar with
    | some digit => reader.appendDigit digit
    | none =>
      if nextChar = '\'' then
        if reader.hasSize then
          .error (.invalidArgument
            ("Unexpected quote (') found while parsing decimal number: " ++ shown))
        else if reader.parsedDigits then
          if reader.value % uint32Size = 0 then
            .error (.invalidArgument "Bits count must be at least one!")
          else .ok ⟨reader.value % uint32Size, false, true, true, 0⟩
        else .ok { reader with nextMustBeD := true }
      else if nextChar = 'd' ∨ nextChar = 'D' then
        if reader.nextMustBeD then { reader with nextMustBeD := false }.appendDigit 0
        else .error (.invalidArgument
          ("Unexpected 'd' found while parsing decimal number: " ++ shown))
      else if isIgnored nextChar then .ok reader
      else if nextChar = 'x' ∨ nextChar = 'X' then
        .error (.invalidArgument ("CreateFromDecString found unexpected \"don't care character\"" ++
          " that is not supported in decimal values"))
      else
        .error (.invalidArgument
          ("CreateFromDecString only support characters in '0123456789xX,':|_-\\x20\\t\\n/', got: '"
            ++ String.ofList [nextChar] ++ "'"))

def readDecChars (text : Text) : Text → DecReader → Except Fault DecReader
  | [], reader => .ok reader
  | nextChar :: rest, reader =>
    match readDecChar text nextChar reader with
    | .ok reader => readDecChars text rest reader
    | .error fault => .error fault

/-- `CreateFromDecString`. The number of bits is narrowed to 8 bits when it is given to `Append`. -/
def createFromDecString (text : Text) (sizeProperty : SizeProperty) : Except Fault BinaryVector :=
  let text := trimLeft text
  if text = [] then .ok empty
  else
    let inverted := text.head? = some '~'
    let text := if inverted then text.tail else text
    let digits := text.dropWhile (· = '0')
    let parsedDigits := text.head? = some '0'
    match readDecChars digits digits ⟨32, parsedDigits, false, false, 0⟩ with
    | .error fault => .error fault
    | .ok reader =>
      if ¬reader.parsedDigits then
        .error (.invalidArgument ("Failed to parse an integer from: " ++ String.ofList digits))
      else
        let bitsCount :=
          if ¬reader.hasSize ∧ reader.value > uint32Size - 1 then 64 else reader.bitsCount
        match build empty (append64 (BitVec.ofNat 64 reader.value) (bitsCount % 256) .right) with
        | .error fault => .error fault
        | .ok result =>
          let result := { result with sizeProperty := sizeProperty }
          if inverted then build result toggleBits else .ok result

/-! ### Mixed texts -/

def numberBaseForValuePrefix (number : Text) : NumberBase :=
  match number with
  | [] => .undefined
  | baseChar :: _ =>
    if baseChar = 'b' ∨ baseChar = 'B' then .binary
    else if baseChar ∈ ['h', 'H', 'x', 'X'] then .hexadecimal
    else if baseChar = 'd' ∨ baseChar = 'D' then .decimal
    else if baseChar = 'o' ∨ baseChar = 'O' then .octal
    else .undefined

/-- The digits loop of `ToUInt32`: the value and the number of characters read. -/
def readUInt32 : Text → Nat → Nat → Except Fault (Nat × Nat)
  | [], value, count => .ok (value, count)
  | c :: rest, value, count =>
    match decDigitValue c with
    | none => .ok (value, count)
    | some digit =>
      if value > (uint32Size - 1) / 10 then
        .error (.outOfRange "Parsed value is out of uint32_t range")
      else if (value * 10 + digit) % uint32Size < value * 10 then
        .error (.outOfRange "Parsed value is out of uint32_t range")
      else readUInt32 rest (value * 10 + digit) (count + 1)

/-- `ToUInt32`: the value at the start of a text and the number of characters it takes. -/
def toUInt32 (text : Text) : Except Fault (Nat × Nat) :=
  let curText := trimLeft text
  if curText = [] then .error (.invalidArgument "Invalid empty text")
  else
    let curText := if curText.head? = some '+' then curText.tail else curText
    let digits := curText.dropWhile (· = '0')
    let parsedDigits := curText.head? = some '0'
    match readUInt32 digits 0 0 with
    | .error fault => .error fault
    | .ok (value, parsedCount) =>
      if parsedDigits ∨ parsedCount ≠ 0 then
        .ok (value, text.length - digits.length + parsedCount)
      else .error (.invalidArgument "Found nothing to parse as an uint32_t")

/-- How a value is encoded within a text; a bits count of 0 means unspecified. -/
structure EncodingInfo where
  base : NumberBase
  inverted : Bool
  bitsCount : Nat

/-- The ICL part of `extractEncodingInfo`: an optional size, a quote and the letter of a base. -/
def extractIclInfo (inverted : Bool) (text : Text) : Except Fault (EncodingInfo × Text) :=
  match text with
  | [] => .ok (⟨.undefined, inverted, 0⟩, [])
  | leading :: _ =>
    match if '1' ≤ leading ∧ leading ≤ '9' then toUInt32 text else .ok (0, 0) with
    | .error fault => .error fault
    | .ok (bitsCount, bitId) =>
      if text[bitId]? = some '\'' then
        let rest := text.drop (bitId + 1)
        let base := numberBaseForValuePrefix rest
        .ok (⟨base, inverted, bitsCount⟩, if base ≠ .undefined then rest.drop 1 else rest)
      else if bitsCount ≠ 0 then .ok (⟨.decimal, inverted, 0⟩, text)
      else .ok (⟨.undefined, inverted, bitsCount⟩, text)

/-- `extractEncodingInfo`: the encoding at the start of a text and the text after it. -/
def extractEncodingInfo (firstChunk : Bool) (text : Text) : Except Fault (EncodingInfo × Text) :=
  match text with
  | [] => .error .undefinedBehaviour
  | firstChar :: afterFirst =>
    if firstChar = '/' ∨ firstChar = '\\' ∨ firstChunk ∧ firstChar = '0' then
      let base := numberBaseForValuePrefix afterFirst
      .ok (⟨base, false, 0⟩, if base ≠ .undefined then text.drop 2 else text)
    else if firstChar = '~' then extractIclInfo true afterFirst
    else extractIclInfo false text

def endsChunk (c : Char) : Bool := c ∈ ['/', ',', '\\', '\'']

/-- `getNextChunk`: the encoding and the digits of the first chunk, and the text after it. -/
def getNextChunk (firstChunk : Bool) (text : Text) :
    Except Fault (EncodingInfo × Text × Text) :=
  match extractEncodingInfo firstChunk (trimLeft text) with
  | .error fault => .error fault
  | .ok (info, text) =>
    if info.base = .undefined then .ok (info, text, text)
    else
      let chunk := text.takeWhile fun c => !endsChunk c
      let rest := text.drop chunk.length
      .ok (info, chunk, if rest.head? = some ',' then trimLeft rest.tail else rest)

/-- A chunk once it is parsed and truncated: what `CreateFromString` appends for it. -/
structure ChunkValue where
  vector : BinaryVector
  extension : Option (Bool × Nat)
  inverted : Bool

/-- The vector a chunk encodes, before its size is applied. -/
def chunkVector (base : NumberBase) (bitsChunk : Text) (dontCare : DontCare) :
    Except Fault BinaryVector :=
  match base with
  | .binary => createFromBinaryString bitsChunk .notFixed dontCare
  | .hexadecimal => createFromHexString bitsChunk .notFixed dontCare
  | .decimal => createFromDecString bitsChunk .notFixed
  | .octal => .error (.invalidArgument "Octal numbers are not supported!")
  | .undefined => .error (.invalidArgument
      "Cannot tell whether value is in decimal, hexadecimal or binary")

/-- The body of the loop of `CreateFromString` up to where it changes the result. -/
def chunkValue (info : EncodingInfo) (bitsChunk : Text) (dontCare : DontCare) :
    Except Fault ChunkValue :=
  if bitsChunk = [] then .error (.invalidArgument "Cannot parse empty number")
  else
    match chunkVector info.base bitsChunk dontCare with
    | .error fault => .error fault
    | .ok vector =>
      let chunkBitsCount := vector.usedBits
      if info.bitsCount ≠ 0 ∧ info.bitsCount ≠ chunkBitsCount then
        if info.bitsCount < chunkBitsCount then
          match vector.slice (chunkBitsCount - info.bitsCount) info.bitsCount with
          | .error fault => .error fault
          | .ok truncated =>
            -- the assigned vector keeps its own size property, which is never fixed here
            .ok ⟨truncated, none, info.inverted⟩
        else
          match isNegative vector with
          | .error fault => .error fault
          | .ok negative =>
            .ok ⟨vector, some (if info.inverted then !negative else negative,
              info.bitsCount - chunkBitsCount), info.inverted⟩
      else .ok ⟨vector, none, info.inverted⟩

/-- The end of the body: extends the result, then appends the chunk, inverted if it must be. -/
def appendChunkValue (chunk : ChunkValue) : Mutation Unit := do
  match chunk.extension with
  | some (appendOnes, count) => appendBits appendOnes count
  | none => pure ()
  let vector ← orThrow (if chunk.inverted then build chunk.vector toggleBits else .ok chunk.vector)
  append vector

theorem trimLeft_length_le (text : Text) : (trimLeft text).length ≤ text.length :=
  (List.dropWhile_suffix _).length_le

theorem extractIclInfo_length_le {inverted : Bool} {text rest : Text} {info : EncodingInfo}
    (h : extractIclInfo inverted text = .ok (info, rest)) : rest.length ≤ text.length := by
  unfold extractIclInfo at h
  split at h
  · injection h with h
    obtain ⟨-, rfl⟩ := Prod.mk.inj h
    exact Nat.le_refl _
  · split at h
    · simp at h
    · split_ifs at h
      all_goals
        injection h with h
        obtain ⟨-, rfl⟩ := Prod.mk.inj h
        first
          | exact Nat.le_refl _
          | split <;> simp <;> omega

theorem extractEncodingInfo_length_le {firstChunk : Bool} {text rest : Text} {info : EncodingInfo}
    (h : extractEncodingInfo firstChunk text = .ok (info, rest)) :
    rest.length ≤ text.length := by
  unfold extractEncodingInfo at h
  split at h
  · simp at h
  · split_ifs at h
    · injection h with h
      obtain ⟨-, rfl⟩ := Prod.mk.inj h
      split <;> simp
      omega
    · exact (extractIclInfo_length_le h).trans (Nat.le_succ _)
    · exact extractIclInfo_length_le h

theorem getNextChunk_length_lt {firstChunk : Bool} {text chunk rest : Text} {info : EncodingInfo}
    (h : getNextChunk firstChunk text = .ok (info, chunk, rest)) (hbase : info.base ≠ .undefined)
    (hchunk : chunk ≠ []) : rest.length < text.length := by
  unfold getNextChunk at h
  split at h
  · simp at h
  · rename_i info' encoded hextract
    have hle := (extractEncodingInfo_length_le hextract).trans (trimLeft_length_le text)
    split at h
    · rename_i hundefined
      injection h with h
      obtain ⟨rfl, -⟩ := Prod.mk.inj h
      exact absurd hundefined hbase
    · injection h with h
      obtain ⟨-, h⟩ := Prod.mk.inj h
      obtain ⟨hchunk', rfl⟩ := Prod.mk.inj h
      have hpos : 0 < chunk.length := List.length_pos_iff.mpr hchunk
      have hsub : (encoded.takeWhile fun c => !endsChunk c).length ≤ encoded.length :=
        (List.takeWhile_prefix _).length_le
      have hdrop : (encoded.drop (encoded.takeWhile fun c => !endsChunk c).length).length <
          text.length := by
        rw [List.length_drop, hchunk']
        rw [hchunk'] at hsub
        omega
      split
      · refine lt_of_le_of_lt ((trimLeft_length_le _).trans ?_) hdrop
        rw [List.length_tail]
        omega
      · exact hdrop

/-- Reading a chunk makes progress: a text of which a chunk is accepted gets shorter. -/
theorem chunkValue_length_lt {firstChunk : Bool} {text bitsChunk rest : Text} {info : EncodingInfo}
    {dontCare : DontCare} {chunk : ChunkValue}
    (hnext : getNextChunk firstChunk text = .ok (info, bitsChunk, rest))
    (hvalue : chunkValue info bitsChunk dontCare = .ok chunk) : rest.length < text.length := by
  refine getNextChunk_length_lt hnext ?_ ?_
  · intro hundefined
    simp only [chunkValue, chunkVector, hundefined] at hvalue
    split at hvalue <;> simp at hvalue
  · intro hempty
    simp [chunkValue, hempty] at hvalue

/-- The loop of `CreateFromString`, with the result built so far. -/
def appendChunkValues (dontCare : DontCare) (firstChunk : Bool) (text : Text)
    (result : BinaryVector) : Except Fault BinaryVector :=
  if text = [] then .ok result
  else
    match _hnext : getNextChunk firstChunk text with
    | .error fault => .error fault
    | .ok (info, bitsChunk, rest) =>
      match _hvalue : chunkValue info bitsChunk dontCare with
      | .error fault => .error fault
      | .ok chunk =>
        match build result (appendChunkValue chunk) with
        | .error fault => .error fault
        | .ok result => appendChunkValues dontCare false rest result
termination_by text.length
decreasing_by exact chunkValue_length_lt _hnext _hvalue

def createFromString (text : Text) (sizeProperty : SizeProperty) (dontCare : DontCare) :
    Except Fault BinaryVector :=
  let text := trimLeft text
  if text = [] then .ok empty
  else
    match appendChunkValues dontCare true (text.dropWhile isBlank) empty with
    | .error fault => .error fault
    | .ok result => .ok { result with sizeProperty := sizeProperty }

end BinaryVector

end Mast
