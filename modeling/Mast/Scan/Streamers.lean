import Mast.Lib.ShiftLine
import Mast.Scan.ScanPath
import Mathlib.Data.List.Nodup

/-!
# Streamers on the scan path

A streamer ciphers the bits that cross the entry and the exit of its segment. Bits for a register behind the segment cross both, those for a register inside it the entry only; on the way out it is the other way round. The manager ciphers the vector it sends, and what it receives, so that both come out in plain: for each streamer it slices the mask for the bits before, inside and after the segment.
-/

namespace Mast

open Outcome ShiftLine

/-! ### Protocols -/

/-- The protocols of the streamers. `newMask` may change what the protocol of a streamer holds. -/
structure StreamerProtocols (σ : Type) where
  newMask : (streamer : Nat) → σ → (maskBits : Nat) → Bits × σ

/-- What the protocol of each streamer holds, and its current mask. -/
structure Streamers (σ : Type) where
  protocol : Nat → σ
  currentMask : Nat → Bits

variable {σ : Type}

namespace StreamerProtocol

/-- `NewMask`, which becomes the current mask. -/
def newMask (p : StreamerProtocols σ) (streamer maskBits : Nat) (streamers : Streamers σ) :
    Bits × Streamers σ :=
  let made := p.newMask streamer (streamers.protocol streamer) maskBits
  (made.1,
    { protocol := Function.update streamers.protocol streamer made.2
      currentMask := Function.update streamers.currentMask streamer made.1 })

def applyMask (plainText mask : Bits) : Except Fault Bits :=
  if plainText.length = mask.length then .ok (List.zipWith xor plainText mask)
  else .error (.invalidArgument "Vectors must have the same size")

end StreamerProtocol

open StreamerProtocol

/-! ### The manager -/

/-- Subtraction of `uint32_t` values. -/
def sub32 (a b : Nat) : Nat := (a + uint32Size - b) % uint32Size

namespace SystemModelManager

def sliceIf (vector : Bits) (firstBitOffset bitsCount : Nat) : Except Fault Bits :=
  if bitsCount > 0 then vector.slice firstBitOffset bitsCount else .ok []

/-- The bits that are ciphered twice, with the slices of the mask at two offsets. -/
def cipherTwice (vector mask : Bits) (firstBitOffset bitsCount first second : Nat) :
    Except Fault Bits :=
  if bitsCount > 0 then do
    let plain ← vector.slice firstBitOffset bitsCount
    let mask₁ ← mask.slice first bitsCount
    let mask₂ ← mask.slice second bitsCount
    let once ← applyMask plain mask₁
    applyMask once mask₂
  else .ok []

/-- `ApplyStreamer` to SUT: nothing for the bits before the segment, the mask from its beginning for those inside it. -/
def applyToSut (mask : Bits) (beforeBits endOfProtectedBits : Nat) (vector vectorProtected : Bits) :
    Except Fault Bits := do
  let protectedBits := sub32 endOfProtectedBits beforeBits
  let afterBits := sub32 vector.length endOfProtectedBits
  let maskProtected ← mask.slice 0 protectedBits
  let beforeVector ← sliceIf vector 0 beforeBits
  let afterVector ← cipherTwice vector mask endOfProtectedBits afterBits 0 protectedBits
  let protectedVector ← applyMask vectorProtected maskProtected
  return beforeVector ++ protectedVector ++ afterVector

/-- `ApplyStreamer` from SUT: nothing for the bits after the segment, the mask up to its end for those inside it. -/
def applyFromSut (mask : Bits) (beforeBits endOfProtectedBits : Nat)
    (vector vectorProtected : Bits) : Except Fault Bits := do
  let protectedBits := sub32 endOfProtectedBits beforeBits
  let afterBits := sub32 vector.length endOfProtectedBits
  let maskProtected ← mask.slice (sub32 mask.length protectedBits) protectedBits
  let afterVector ← sliceIf vector endOfProtectedBits afterBits
  let beforeVector ← cipherTwice vector mask 0 beforeBits (sub32 mask.length beforeBits)
    (sub32 (sub32 mask.length beforeBits) protectedBits)
  let protectedVector ← applyMask vectorProtected maskProtected
  return beforeVector ++ protectedVector ++ afterVector

/-- `ApplyStreamer`. To SUT it asks for a new mask, from SUT it uses the current one. -/
def applyStreamer (p : StreamerProtocols σ) (level : StreamerLevel) (vector : Bits)
    (isToSut : Bool) (streamers : Streamers σ) : Except Fault (Bits × Streamers σ) := do
  let vectorProtected ← vector.slice level.input (sub32 level.output level.input)
  if ¬level.output > level.input then
    .error (.invalidArgument "Protected Segment must have a positive size")
  else if isToSut then
    let made := newMask p level.streamer vector.length streamers
    let chypher ← applyToSut made.1 level.input level.output vector vectorProtected
    return (chypher, made.2)
  else
    let chypher ← applyFromSut (streamers.currentMask level.streamer) level.input level.output vector
      vectorProtected
    return (chypher, streamers)

/-- The loop over the active streamers before the vector is sent. -/
def cipherToSut (p : StreamerProtocols σ) :
    List StreamerLevel → Bits → Streamers σ → Except Fault (Bits × Streamers σ)
  | [], vector, streamers => .ok (vector, streamers)
  | level :: levels, vector, streamers => do
    let applied ← applyStreamer p level vector true streamers
    cipherToSut p levels applied.1 applied.2

/-- The loop over the active streamers once the vector is received, from the last one back. -/
def cipherFromSut (p : StreamerProtocols σ) :
    List StreamerLevel → Bits → Streamers σ → Except Fault (Bits × Streamers σ)
  | [], vector, streamers => .ok (vector, streamers)
  | level :: levels, vector, streamers => do
    let rest ← cipherFromSut p levels vector streamers
    applyStreamer p level rest.1 false rest.2

/-- What is left of a data cycle on a channel: the vector that was built, what the device holds, the vector to update the registers from, and the streamers. -/
structure ChannelCycle (σ δ : Type) where
  visitor : ToSutVisitor
  device : δ
  fromSutVector : Bits
  streamers : Streamers σ

/-- The iteration of `DoHierarchicalDataCycle` for a pending channel, up to the update of the registers; nothing is sent when there is nothing to send. -/
def channelCycle {δ : Type} (p : StreamerProtocols σ) (doCallback : Bits → δ → Bits × δ)
    (s : SystemModel) (channel : Nodes) (device : δ) (streamers : Streamers σ) :
    Except Fault (Option (ChannelCycle σ δ)) := do
  let visitor ← ToSutVisitor.visit s false none channel .start
  if visitor.toSutVector = [] then return none
  else
    let sent ← cipherToSut p visitor.activeStreamers visitor.toSutVector streamers
    let called := doCallback sent.1 device
    let received ← cipherFromSut p visitor.activeStreamers called.1 sent.2
    return some ⟨visitor, called.2, received.1, received.2⟩

end SystemModelManager

/-! ### The device -/

/-- A scan path with streamers: where their segments are, the key each gives in a cycle, and the bits held, from the input of the path to its output. -/
structure Device where
  levels : List StreamerLevel
  keystream : (streamer cycle : Nat) → Bool
  held : Bits

namespace Device

/-- What a bit meets at a boundary: the key of each streamer whose segment begins there and of each one whose segment ends there. -/
def key (d : Device) (cycle boundary : Nat) : Bool :=
  xorAll
    (fun level =>
      boundaryKey level.input (d.keystream level.streamer) cycle boundary ^^
        boundaryKey level.output (d.keystream level.streamer) cycle boundary) d.levels

/-- The shift of a vector through the path: its last bit goes in first, and the first bit that comes out is the last one of the vector that is received. -/
def shift (vector : Bits) (d : Device) : Bits × Device :=
  let scanned := scan (fun cycle boundary bit => bit ^^ d.key cycle boundary) 0 vector.reverse d.held
  (scanned.2.reverse, { d with held := scanned.1 })

end Device

/-! ### What the manager does to a vector -/

namespace SystemModelManager

theorem sub32_eq {a b : Nat} (ha : a < uint32Size) (hle : b ≤ a) : sub32 a b = a - b := by
  rw [sub32, Nat.sub_add_comm hle, Nat.add_mod_right, Nat.mod_eq_of_lt]
  exact Nat.lt_of_le_of_lt (Nat.sub_le a b) ha

theorem sliceIf_eq {vector : Bits} {firstBitOffset bitsCount : Nat}
    (hvector : vector.length < uint32Size) (hrange : firstBitOffset + bitsCount ≤ vector.length) :
    sliceIf vector firstBitOffset bitsCount =
      .ok ((vector.drop firstBitOffset).take bitsCount) := by
  by_cases hbits : bitsCount > 0
  · rw [sliceIf, if_pos hbits, Bits.slice_eq hvector hrange]
  · obtain rfl : bitsCount = 0 := by omega
    rw [sliceIf, if_neg hbits, List.take_zero]

theorem applyMask_eq {plainText mask : Bits} {offset : Nat}
    (hmask : offset + plainText.length ≤ mask.length) :
    applyMask plainText ((mask.drop offset).take plainText.length) =
      .ok (scramble (fun i => mask.getD (offset + i) false) plainText) := by
  have hsame : plainText.length = ((mask.drop offset).take plainText.length).length := by
    rw [List.length_take, List.length_drop]
    omega
  rw [applyMask, if_pos hsame, zipWith_xor_slice hmask]

theorem cipherTwice_eq {vector mask : Bits} {firstBitOffset bitsCount first second : Nat}
    (hvector : vector.length < uint32Size) (hmask : mask.length < uint32Size)
    (hrange : firstBitOffset + bitsCount ≤ vector.length) (hfirst : first + bitsCount ≤ mask.length)
    (hsecond : second + bitsCount ≤ mask.length) :
    cipherTwice vector mask firstBitOffset bitsCount first second =
      .ok (scramble (fun i => mask.getD (first + i) false ^^ mask.getD (second + i) false)
        ((vector.drop firstBitOffset).take bitsCount)) := by
  by_cases hbits : bitsCount > 0
  · have hlength : ((vector.drop firstBitOffset).take bitsCount).length = bitsCount := by
      rw [List.length_take, List.length_drop]
      omega
    have honce := applyMask_eq (show first + ((vector.drop firstBitOffset).take bitsCount).length ≤
      mask.length by rw [hlength]; exact hfirst)
    have hscrambled : second + (scramble (fun i => mask.getD (first + i) false)
        ((vector.drop firstBitOffset).take bitsCount)).length ≤ mask.length := by
      rw [scramble_length, hlength]
      exact hsecond
    have htwice := applyMask_eq hscrambled
    rw [scramble_length, scramble_scramble] at htwice
    rw [hlength] at honce htwice
    rw [cipherTwice, if_pos hbits, Bits.slice_eq hvector hrange, Bits.slice_eq hmask hfirst,
      Bits.slice_eq hmask hsecond]
    exact bind_eq_ok.mpr ⟨_, rfl, bind_eq_ok.mpr ⟨_, rfl, bind_eq_ok.mpr ⟨_, rfl,
      bind_eq_ok.mpr ⟨_, honce, htwice⟩⟩⟩⟩
  · obtain rfl : bitsCount = 0 := by omega
    rw [cipherTwice, if_neg hbits, List.take_zero]
    rfl

/-- A vector cut at the two ends of a segment. -/
theorem segments_append (vector : Bits) {a b : Nat} (hab : a ≤ b) :
    vector.take a ++ (vector.drop a).take (b - a) ++ (vector.drop b).take (vector.length - b) =
      vector := by
  have hrest : (vector.drop b).take (vector.length - b) = vector.drop b := by
    apply List.take_of_length_le
    rw [List.length_drop]
  have hinside : (vector.drop a).take (b - a) ++ vector.drop b = vector.drop a := by
    have hdrop : vector.drop b = (vector.drop a).drop (b - a) := by
      rw [List.drop_drop, Nat.add_sub_cancel' hab]
    rw [hdrop, List.take_append_drop]
  rw [hrest, List.append_assoc, hinside, List.take_append_drop]

/-- The key of each bit on its way to the SUT. -/
def toSutKey (mask : Bits) (a b i : Nat) : Bool :=
  (if a ≤ i then mask.getD (i - a) false else false) ^^
    (if b ≤ i then mask.getD (i - b) false else false)

/-- The key of each bit on its way from the SUT. -/
def fromSutKey (mask : Bits) (a b i : Nat) : Bool :=
  (if i < a then mask.getD (mask.length - a + i) false else false) ^^
    (if i < b then mask.getD (mask.length - b + i) false else false)

section Segment

variable {vector mask : Bits} {a b : Nat} (hvector : vector.length < uint32Size)
  (hmask : mask.length = vector.length) (hab : a < b) (hb : b ≤ vector.length)
include hvector hmask hab hb

theorem applyToSut_eq :
    applyToSut mask a b vector ((vector.drop a).take (b - a)) =
      .ok (scramble (toSutKey mask a b) vector) := by
  have hprotected : sub32 b a = b - a := sub32_eq (Nat.lt_of_le_of_lt hb hvector) (Nat.le_of_lt hab)
  have hafter : sub32 vector.length b = vector.length - b := sub32_eq hvector hb
  have hmask32 : mask.length < uint32Size := hmask ▸ hvector
  have hlength : ((vector.drop a).take (b - a)).length = b - a := by
    rw [List.length_take, List.length_drop]
    omega
  have hbefore := sliceIf_eq hvector (show 0 + a ≤ vector.length by omega)
  have htwice := cipherTwice_eq hvector hmask32
    (show b + (vector.length - b) ≤ vector.length by omega)
    (show 0 + (vector.length - b) ≤ mask.length by omega)
    (show b - a + (vector.length - b) ≤ mask.length by omega)
  have honce := applyMask_eq (show 0 + ((vector.drop a).take (b - a)).length ≤ mask.length by
    rw [hlength]
    omega)
  rw [hlength] at honce
  have hsliced := Bits.slice_eq hmask32 (show 0 + (b - a) ≤ mask.length by omega)
  have hwhole : vector.take a ++ scramble (fun i => mask.getD (0 + i) false)
      ((vector.drop a).take (b - a)) ++
      scramble (fun i => mask.getD (0 + i) false ^^ mask.getD (b - a + i) false)
        ((vector.drop b).take (vector.length - b)) = scramble (toSutKey mask a b) vector := by
    have htake : (vector.take a).length = a := by
      rw [List.length_take]
      omega
    have hboth : (vector.take a ++ (vector.drop a).take (b - a)).length = b := by
      rw [List.length_append, htake, hlength]
      omega
    conv_rhs => rw [← segments_append vector (Nat.le_of_lt hab)]
    rw [scramble_append, scramble_append, hboth, htake]
    congr 1
    · congr 1
      · rw [← scramble_false (vector.take a)]
        rw [scramble_scramble]
        apply scramble_congr
        intro i hi
        rw [htake] at hi
        rw [toSutKey, if_neg (by omega), if_neg (by omega)]
        rfl
      · apply scramble_congr
        intro i hi
        rw [hlength] at hi
        rw [toSutKey, if_pos (by omega), if_neg (by omega), Nat.add_sub_cancel_left, Nat.zero_add,
          Bool.xor_false]
    · apply scramble_congr
      intro i _
      have hfirst : b + i - a = b - a + i := by omega
      rw [toSutKey, if_pos (by omega), if_pos (by omega), Nat.add_sub_cancel_left, Nat.zero_add,
        hfirst, Bool.xor_comm]
  rw [applyToSut, hprotected, hafter, ← hwhole]
  exact bind_eq_ok.mpr ⟨_, hsliced, bind_eq_ok.mpr ⟨_, hbefore, bind_eq_ok.mpr ⟨_, htwice,
    bind_eq_ok.mpr ⟨_, honce, rfl⟩⟩⟩⟩

theorem applyFromSut_eq :
    applyFromSut mask a b vector ((vector.drop a).take (b - a)) =
      .ok (scramble (fromSutKey mask a b) vector) := by
  have hprotected : sub32 b a = b - a := sub32_eq (Nat.lt_of_le_of_lt hb hvector) (Nat.le_of_lt hab)
  have hafter : sub32 vector.length b = vector.length - b := sub32_eq hvector hb
  have hmask32 : mask.length < uint32Size := hmask ▸ hvector
  have hfirst : sub32 mask.length a = mask.length - a := sub32_eq hmask32 (by omega)
  have hsecond : sub32 (mask.length - a) (b - a) = mask.length - b := by
    rw [sub32_eq (by omega) (by omega)]
    omega
  have hinside : sub32 mask.length (b - a) = mask.length - (b - a) := sub32_eq hmask32 (by omega)
  have hlength : ((vector.drop a).take (b - a)).length = b - a := by
    rw [List.length_take, List.length_drop]
    omega
  have hrest := sliceIf_eq hvector (show b + (vector.length - b) ≤ vector.length by omega)
  have htwice := cipherTwice_eq hvector hmask32 (show 0 + a ≤ vector.length by omega)
    (show mask.length - a + a ≤ mask.length by omega)
    (show mask.length - b + a ≤ mask.length by omega)
  have honce := applyMask_eq (show mask.length - (b - a) + ((vector.drop a).take (b - a)).length ≤
      mask.length by
    rw [hlength]
    omega)
  rw [hlength] at honce
  have hsliced := Bits.slice_eq hmask32
    (show mask.length - (b - a) + (b - a) ≤ mask.length by omega)
  have hwhole : scramble
      (fun i => mask.getD (mask.length - a + i) false ^^ mask.getD (mask.length - b + i) false)
      (vector.take a) ++ scramble (fun i => mask.getD (mask.length - (b - a) + i) false)
      ((vector.drop a).take (b - a)) ++ (vector.drop b).take (vector.length - b) =
        scramble (fromSutKey mask a b) vector := by
    have htake : (vector.take a).length = a := by
      rw [List.length_take]
      omega
    have hboth : (vector.take a ++ (vector.drop a).take (b - a)).length = b := by
      rw [List.length_append, htake, hlength]
      omega
    conv_rhs => rw [← segments_append vector (Nat.le_of_lt hab)]
    rw [scramble_append, scramble_append, hboth, htake]
    congr 1
    · congr 1
      · apply scramble_congr
        intro i hi
        rw [htake] at hi
        rw [fromSutKey, if_pos hi, if_pos (by omega)]
      · apply scramble_congr
        intro i hi
        rw [hlength] at hi
        have hmoved : mask.length - (b - a) + i = mask.length - b + (a + i) := by omega
        rw [fromSutKey, if_neg (by omega), if_pos (by omega), Bool.false_xor, hmoved]
    · conv_lhs => rw [← scramble_false ((vector.drop b).take (vector.length - b))]
      apply scramble_congr
      intro i _
      rw [fromSutKey, if_neg (by omega), if_neg (by omega)]
      rfl
  rw [applyFromSut, hprotected, hafter, hfirst, hsecond, hinside, ← hwhole]
  exact bind_eq_ok.mpr ⟨_, hsliced, bind_eq_ok.mpr ⟨_, hrest, bind_eq_ok.mpr ⟨_, htwice,
    bind_eq_ok.mpr ⟨_, honce, rfl⟩⟩⟩⟩

end Segment

/-! ### All the streamers of a path -/

/-- A segment of one bit or more within a path. -/
structure Within (pathLength : Nat) (level : StreamerLevel) : Prop where
  positive : level.input < level.output
  inside : level.output ≤ pathLength

section Path

variable {p : StreamerProtocols σ} {level : StreamerLevel} {vector : Bits}
  {streamers : Streamers σ} (hvector : vector.length < uint32Size)
  (hlevel : Within vector.length level)
include hvector hlevel

theorem applyStreamer_toSut {made : Bits × Streamers σ}
    (hmade : newMask p level.streamer vector.length streamers = made)
    (hmask : made.1.length = vector.length) :
    applyStreamer p level vector true streamers =
      .ok (scramble (toSutKey made.1 level.input level.output) vector, made.2) := by
  have hinput := Nat.le_of_lt hlevel.positive
  have hinside := hlevel.inside
  have hbits := sub32_eq (Nat.lt_of_le_of_lt hinside hvector) hinput
  have hslice := Bits.slice_eq hvector
    (show level.input + (level.output - level.input) ≤ vector.length by omega)
  have happly := applyToSut_eq hvector hmask hlevel.positive hinside
  rw [applyStreamer, hbits, hslice]
  refine bind_eq_ok.mpr ⟨_, rfl, ?_⟩
  have hpositive : ¬¬level.output > level.input := not_not.mpr hlevel.positive
  rw [if_neg hpositive, if_pos rfl, hmade]
  exact bind_eq_ok.mpr ⟨_, happly, rfl⟩

theorem applyStreamer_fromSut {mask : Bits} (hcurrent : streamers.currentMask level.streamer = mask)
    (hmask : mask.length = vector.length) :
    applyStreamer p level vector false streamers =
      .ok (scramble (fromSutKey mask level.input level.output) vector, streamers) := by
  have hinput := Nat.le_of_lt hlevel.positive
  have hinside := hlevel.inside
  have hbits := sub32_eq (Nat.lt_of_le_of_lt hinside hvector) hinput
  have hslice := Bits.slice_eq hvector
    (show level.input + (level.output - level.input) ≤ vector.length by omega)
  have happly := applyFromSut_eq hvector hmask hlevel.positive hinside
  rw [applyStreamer, hbits, hslice]
  refine bind_eq_ok.mpr ⟨_, rfl, ?_⟩
  have hpositive : ¬¬level.output > level.input := not_not.mpr hlevel.positive
  rw [if_neg hpositive, if_neg Bool.false_ne_true, hcurrent]
  exact bind_eq_ok.mpr ⟨_, happly, rfl⟩

end Path

/-- What all the streamers of a path make of a key for each of them. -/
def pathKey (key : Bits → Nat → Nat → Nat → Bool) (masks : Nat → Bits) (levels : List StreamerLevel)
    (i : Nat) : Bool :=
  xorAll (fun level => key (masks level.streamer) level.input level.output i) levels

theorem cipherToSut_eq {p : StreamerProtocols σ} {levels : List StreamerLevel} {vector : Bits}
    {streamers : Streamers σ} {masks : Nat → Bits} (hvector : vector.length < uint32Size)
    (hlevels : ∀ level ∈ levels, Within vector.length level)
    (hdistinct : (levels.map StreamerLevel.streamer).Nodup)
    (hmasks : ∀ level ∈ levels, (p.newMask level.streamer (streamers.protocol level.streamer)
      vector.length).1 = masks level.streamer)
    (hlength : ∀ level ∈ levels, (masks level.streamer).length = vector.length) :
    ∃ streamers', cipherToSut p levels vector streamers =
        .ok (scramble (pathKey toSutKey masks levels) vector, streamers') ∧
      (∀ level ∈ levels, streamers'.currentMask level.streamer = masks level.streamer) ∧
      ∀ id, id ∉ levels.map StreamerLevel.streamer →
        streamers'.currentMask id = streamers.currentMask id := by
  induction levels generalizing vector streamers with
  | nil =>
    refine ⟨streamers, ?_, fun level hmem => absurd hmem List.not_mem_nil, fun _ _ => rfl⟩
    exact congrArg (fun bits => Except.ok (bits, streamers)) (scramble_false vector).symm
  | cons level levels ih =>
    obtain ⟨hnew, hdistinct⟩ := List.nodup_cons.mp hdistinct
    have hfirst := hmasks level List.mem_cons_self
    have hsize := hlength level List.mem_cons_self
    generalize hmade : newMask p level.streamer vector.length streamers = made
    have hmask : made.1 = masks level.streamer := by
      rw [← hmade]
      exact hfirst
    have hprotocol (other : StreamerLevel) (hother : other ∈ levels) :
        made.2.protocol other.streamer = streamers.protocol other.streamer := by
      rw [← hmade]
      apply Function.update_of_ne
      intro hsame
      exact hnew (hsame ▸ List.mem_map_of_mem hother)
    have happly := applyStreamer_toSut hvector (hlevels level List.mem_cons_self) hmade
      (by rw [hmask]; exact hsize)
    rw [hmask] at happly
    generalize hscrambled : scramble (toSutKey (masks level.streamer) level.input level.output)
      vector = scrambled at happly
    have hsame : scrambled.length = vector.length := by rw [← hscrambled, scramble_length]
    have hmade' : ∀ other ∈ levels, (p.newMask other.streamer (made.2.protocol other.streamer)
        scrambled.length).1 = masks other.streamer := by
      intro other hother
      rw [hsame, hprotocol other hother]
      exact hmasks other (List.mem_cons_of_mem _ hother)
    have hrest := ih (by rwa [hsame])
      (by rw [hsame]; exact fun other hother => hlevels other (List.mem_cons_of_mem _ hother))
      hdistinct hmade'
      (by rw [hsame]; exact fun other hother => hlength other (List.mem_cons_of_mem _ hother))
    obtain ⟨streamers', hcipher, hcurrent, hothers⟩ := hrest
    refine ⟨streamers', ?_, ?_, ?_⟩
    · rw [← hscrambled, scramble_scramble] at hcipher
      rw [← hscrambled] at happly
      exact bind_eq_ok.mpr ⟨_, happly, hcipher⟩
    · intro other hother
      rcases List.mem_cons.mp hother with rfl | hother
      · rw [hothers _ hnew, ← hmade, ← hmask, ← hmade]
        exact Function.update_self _ _ _
      · exact hcurrent other hother
    · intro id hid
      have hne : id ≠ level.streamer := fun hsame => hid (hsame ▸ List.mem_cons_self)
      rw [hothers id fun hmem => hid (List.mem_cons_of_mem _ hmem), ← hmade]
      exact Function.update_of_ne hne _ _

theorem cipherFromSut_eq {p : StreamerProtocols σ} {levels : List StreamerLevel} {vector : Bits}
    {streamers : Streamers σ} {masks : Nat → Bits} (hvector : vector.length < uint32Size)
    (hlevels : ∀ level ∈ levels, Within vector.length level)
    (hcurrent : ∀ level ∈ levels, streamers.currentMask level.streamer = masks level.streamer)
    (hlength : ∀ level ∈ levels, (masks level.streamer).length = vector.length) :
    cipherFromSut p levels vector streamers =
      .ok (scramble (pathKey fromSutKey masks levels) vector, streamers) := by
  induction levels with
  | nil => exact congrArg (fun bits => Except.ok (bits, streamers)) (scramble_false vector).symm
  | cons level levels ih =>
    have hrest := ih (fun other hother => hlevels other (List.mem_cons_of_mem _ hother))
      (fun other hother => hcurrent other (List.mem_cons_of_mem _ hother))
      (fun other hother => hlength other (List.mem_cons_of_mem _ hother))
    have hscrambled := scramble_length (pathKey fromSutKey masks levels) vector
    have happly : applyStreamer p level (scramble (pathKey fromSutKey masks levels) vector) false
        streamers = .ok (scramble (fromSutKey (masks level.streamer) level.input level.output)
          (scramble (pathKey fromSutKey masks levels) vector), streamers) :=
      applyStreamer_fromSut (by rwa [hscrambled])
        (by rw [hscrambled]; exact hlevels level List.mem_cons_self)
        (hcurrent level List.mem_cons_self)
        (by rw [hscrambled]; exact hlength level List.mem_cons_self)
    rw [scramble_scramble] at happly
    refine bind_eq_ok.mpr ⟨_, hrest, happly.trans ?_⟩
    congr 2
    apply scramble_congr
    intro i _
    exact Bool.xor_comm _ _

end SystemModelManager

/-! ### What the device does to a vector -/

/-- The keystream of the cycles of a shift, the last one first. -/
def reversedKeystream (keystream : Nat → Bool) (maskBits : Nat) : Bits :=
  (List.range maskBits).map fun i => keystream (maskBits - 1 - i)

theorem reversedKeystream_length (keystream : Nat → Bool) (maskBits : Nat) :
    (reversedKeystream keystream maskBits).length = maskBits := by
  rw [reversedKeystream, List.length_map, List.length_range]

theorem reversedKeystream_getD (keystream : Nat → Bool) {maskBits i : Nat} (hi : i < maskBits) :
    (reversedKeystream keystream maskBits).getD i false = keystream (maskBits - 1 - i) := by
  rw [reversedKeystream, List.getD_eq_getElem?_getD, List.getElem?_map, List.getElem?_range hi]
  rfl

namespace Device

open SystemModelManager

variable {d : Device} {vector : Bits}

/-- On the way in a bit meets the keys that the manager has put on it. -/
theorem travelKey_toSut {level : StreamerLevel} {pathLength : Nat} (keystream : Nat → Bool)
    (hlevel : Within pathLength level) {i : Nat} (hi : i < pathLength) :
    travelKey (fun cycle boundary => boundaryKey level.input keystream cycle boundary ^^
        boundaryKey level.output keystream cycle boundary) pathLength pathLength i =
      toSutKey (reversedKeystream keystream pathLength) level.input level.output i := by
  have hpositive := hlevel.positive
  have hinside := hlevel.inside
  have hside {boundary : Nat} (hboundary : boundary ≤ pathLength) :
      travelKey (boundaryKey boundary keystream) pathLength pathLength i =
        if boundary ≤ i then
          (reversedKeystream keystream pathLength).getD (i - boundary) false
        else false := by
    rw [travelKey_boundary keystream hboundary]
    by_cases hcrossed : boundary ≤ i
    · have hcycle : boundary + pathLength - 1 - i = pathLength - 1 - (i - boundary) := by omega
      rw [if_pos (by omega), if_pos hcrossed, reversedKeystream_getD keystream (by omega), hcycle]
    · rw [if_neg (by omega), if_neg hcrossed]
  rw [travelKey_xor, hside (by omega), hside hinside, toSutKey]

/-- On the way out a bit meets the keys that the manager will take off. -/
theorem travelKey_fromSut {level : StreamerLevel} {pathLength : Nat} (keystream : Nat → Bool)
    (hlevel : Within pathLength level) (i : Nat) :
    travelKey (fun cycle boundary => boundaryKey level.input keystream cycle boundary ^^
        boundaryKey level.output keystream cycle boundary) pathLength pathLength (pathLength + i) =
      fromSutKey (reversedKeystream keystream pathLength) level.input level.output i := by
  have hpositive := hlevel.positive
  have hinside := hlevel.inside
  have hside {boundary : Nat} (hboundary : boundary ≤ pathLength) :
      travelKey (boundaryKey boundary keystream) pathLength pathLength (pathLength + i) =
        if i < boundary then
          (reversedKeystream keystream pathLength).getD (pathLength - boundary + i) false
        else false := by
    rw [travelKey_boundary keystream hboundary]
    by_cases hcrossed : i < boundary
    · have hcycle : boundary + pathLength - 1 - (pathLength + i) =
          pathLength - 1 - (pathLength - boundary + i) := by omega
      rw [if_pos (by omega), if_pos hcrossed, reversedKeystream_getD keystream (by omega), hcycle]
    · rw [if_neg (by omega), if_neg hcrossed]
  rw [travelKey_xor, hside (by omega), hside hinside, fromSutKey, reversedKeystream_length]

def masks (d : Device) (pathLength streamer : Nat) : Bits :=
  reversedKeystream (d.keystream streamer) pathLength

theorem shift_eq (hlength : vector.length = d.held.length)
    (hlevels : ∀ level ∈ d.levels, Within vector.length level) :
    d.shift vector =
      (scramble (pathKey fromSutKey (d.masks vector.length) d.levels) d.held,
        { d with held := scramble (pathKey toSutKey (d.masks vector.length) d.levels) vector }) := by
  obtain ⟨hheld, hout⟩ := scan_scrambles d.key hlength
  have hkey : d.key = fun cycle boundary => xorAll (fun level : StreamerLevel =>
      boundaryKey level.input (d.keystream level.streamer) cycle boundary ^^
        boundaryKey level.output (d.keystream level.streamer) cycle boundary) d.levels := rfl
  rw [Prod.ext_iff, shift]
  constructor
  · refine hout.trans (scramble_congr fun i _ => ?_)
    rw [hkey, travelKey_xorAll, pathKey]
    apply xorAll_congr
    intro level hlevel
    have hwithin : Within d.held.length level := hlength ▸ hlevels level hlevel
    rw [travelKey_fromSut _ hwithin, masks, hlength]
  · have hcells : (scan (fun cycle boundary bit => bit ^^ d.key cycle boundary) 0 vector.reverse
        d.held).1 = scramble (pathKey toSutKey (d.masks vector.length) d.levels) vector := by
      refine hheld.trans (scramble_congr fun i hi => ?_)
      rw [hkey, travelKey_xorAll, pathKey]
      apply xorAll_congr
      intro level hlevel
      have hwithin : Within d.held.length level := hlength ▸ hlevels level hlevel
      rw [travelKey_toSut _ hwithin (hlength ▸ hi), masks, hlength]
    exact congrArg (fun held => { d with held := held }) hcells

end Device

/-! ### The segments of a path -/

namespace ToSutVisitor

theorem leave_toSutVector (kind : ParentKind) (id : Nat) (before visitor : ToSutVisitor) :
    (leave kind id before visitor).toSutVector = visitor.toSutVector := by
  cases kind <;> rfl

theorem leave_streamers (kind : ParentKind) (id : Nat) (before visitor : ToSutVisitor) :
    ∃ left, (leave kind id before visitor).activeStreamers = visitor.activeStreamers ++ left ∧
      (∀ level ∈ left, level.output = visitor.toSutVector.length) ∧
      (left.map StreamerLevel.streamer = [] ∨ left.map StreamerLevel.streamer = [id]) := by
  cases kind with
  | streamer =>
    refine ⟨[⟨before.toSutVector.length, visitor.toSutVector.length, id⟩], rfl, ?_, .inr rfl⟩
    intro level hlevel
    rw [List.mem_singleton.mp hlevel]
  | accessInterface | accessInterfaceTranslator | chain | linker =>
    exact ⟨[], (List.append_nil _).symm, fun _ h => absurd h List.not_mem_nil, .inl rfl⟩

/-- A visit adds streamers, each one once, whose segments end within what the visit has collected. -/
theorem visit_streamers {s : SystemModel} {ignorePendingState : Bool} {counter : PathCounter}
    {nodes : Nodes} {visitor visitor' : ToSutVisitor}
    (hvisit : visit s ignorePendingState counter nodes visitor = .ok visitor') :
    ∃ added, visitor'.activeStreamers = visitor.activeStreamers ++ added ∧
      (∀ level ∈ added, level.output ≤ visitor'.toSutVector.length) ∧
      added.map StreamerLevel.streamer ⊆ nodes.parentIds ∧
      (nodes.parentIds.Nodup → (added.map StreamerLevel.streamer).Nodup) := by
  induction nodes generalizing counter visitor visitor' with
  | none =>
    obtain rfl := Except.ok.inj hvisit
    exact ⟨[], (List.append_nil _).symm, fun _ h => absurd h List.not_mem_nil,
      List.nil_subset _, fun _ => List.nodup_nil⟩
  | register id nextSibling ih =>
    obtain ⟨visited, hvisited, hrest⟩ := bind_eq_ok.mp hvisit
    cases visited with
    | true =>
      rw [if_pos rfl] at hrest
      have hafter := ih hrest
      exact hafter
    | false =>
      rw [if_neg Bool.false_ne_true] at hrest
      exact ih hrest
  | parent kind id firstChild nextSibling ihChild ihNext =>
    obtain ⟨visited, hvisited, hrest⟩ := bind_eq_ok.mp hvisit
    by_cases henter : visited = true ∧ kind.passesOn = true
    · obtain ⟨rfl, hkind⟩ := henter
      rw [if_pos ⟨rfl, hkind⟩] at hrest
      obtain ⟨inner, hinner, hnext⟩ := bind_eq_ok.mp hrest
      obtain ⟨added, hstreamers, houtputs, hsubset, hnodup⟩ := ihChild hinner
      obtain ⟨added', hstreamers', houtputs', hsubset', hnodup'⟩ := ihNext hnext
      obtain ⟨left, hleave, hends, hleft⟩ := leave_streamers kind id visitor inner
      obtain ⟨ids, hcollects, -, -⟩ := visit_collects hnext
      have hgrows : inner.toSutVector.length ≤ visitor'.toSutVector.length := by
        rw [hcollects.toSutVector, leave_toSutVector, List.length_append]
        exact Nat.le_add_right _ _
      have hleftIds : left.map StreamerLevel.streamer ⊆ [id] := by
        rcases hleft with hleft | hleft
        · rw [hleft]
          exact List.nil_subset _
        · rw [hleft]
          exact List.Subset.refl _
      refine ⟨added ++ left ++ added', ?_, ?_, ?_, ?_⟩
      · rw [hstreamers', hleave, hstreamers, List.append_assoc, List.append_assoc, List.append_assoc]
      · intro level hlevel
        rcases List.mem_append.mp hlevel with hlevel | hlevel
        · rcases List.mem_append.mp hlevel with hlevel | hlevel
          · exact Nat.le_trans (houtputs level hlevel) hgrows
          · exact Nat.le_trans (Nat.le_of_eq (hends level hlevel)) hgrows
        · exact houtputs' level hlevel
      · intro other hmem
        rw [List.map_append, List.map_append] at hmem
        rcases List.mem_append.mp hmem with hmem | hmem
        · rcases List.mem_append.mp hmem with hmem | hmem
          · exact List.mem_cons_of_mem _ (List.mem_append_left _ (hsubset hmem))
          · rw [List.mem_singleton.mp (hleftIds hmem)]
            exact List.mem_cons_self
        · exact List.mem_cons_of_mem _ (List.mem_append_right _ (hsubset' hmem))
      · intro hdistinct
        obtain ⟨hid, hrest⟩ := List.nodup_cons.mp hdistinct
        obtain ⟨hchild, hsiblings, hdisjoint⟩ := List.nodup_append.mp hrest
        have hleftNodup : (left.map StreamerLevel.streamer).Nodup := by
          rcases hleft with hleft | hleft
          · rw [hleft]
            exact List.nodup_nil
          · rw [hleft]
            exact List.nodup_singleton id
        rw [List.map_append, List.map_append, List.nodup_append, List.nodup_append]
        refine ⟨⟨hnodup hchild, hleftNodup, ?_⟩, hnodup' hsiblings, ?_⟩
        · rintro other hother _ hsame rfl
          rw [List.mem_singleton.mp (hleftIds hsame)] at hother
          exact hid (List.mem_append_left _ (hsubset hother))
        · rintro other hother _ hsame rfl
          have hsibling := hsubset' hsame
          rcases List.mem_append.mp hother with hother | hother
          · exact hdisjoint other (hsubset hother) other hsibling rfl
          · rw [List.mem_singleton.mp (hleftIds hother)] at hsibling
            exact hid (List.mem_append_right _ hsibling)
    · rw [if_neg henter] at hrest
      obtain ⟨added, hstreamers, houtputs, hsubset, hnodup⟩ := ihNext hrest
      refine ⟨added, hstreamers, houtputs, ?_, fun h => hnodup ?_⟩
      · exact fun other hmem => List.mem_cons_of_mem _ (List.mem_append_right _ (hsubset hmem))
      · exact (List.nodup_append.mp (List.nodup_cons.mp h).2).2.1

end ToSutVisitor

/-! ### Ciphers that cancel -/

namespace SystemModelManager

/-- The streamers of a device are where the path has them, and the new mask of each one is its keystream, the last cycle first. -/
structure Matches (p : StreamerProtocols σ) (visitor : ToSutVisitor) (streamers : Streamers σ)
    (d : Device) : Prop where
  levels : d.levels = visitor.activeStreamers
  held : d.held.length = visitor.toSutVector.length
  masks : ∀ level ∈ visitor.activeStreamers,
    (p.newMask level.streamer (streamers.protocol level.streamer) visitor.toSutVector.length).1 =
      reversedKeystream (d.keystream level.streamer) visitor.toSutVector.length

/-- A path of five bits; the streamer 7 is around the bits 1 to 3 and the streamer 8 around the last two of these. -/
def nestedChannel : Nodes :=
  .parent .chain 1
    (.register 0 (.parent .streamer 7
      (.register 1 (.parent .streamer 8 (.register 2 .none) .none)) (.register 3 .none))) .none

def nestedModel : SystemModel where
  identifierMapping := [.register, .register, .register, .register]
  registers id := Register.create "reg" (if id = 2 then [true, false] else [true]) false .downto
  pendingCounts _ := 0
  iRunLoopCounts _ := 0

def nestedLevels : List StreamerLevel := [⟨2, 4, 8⟩, ⟨1, 4, 7⟩]

/-- Streamers whose keystreams are one in every second or third cycle. -/
def nestedKeystream (streamer cycle : Nat) : Bool := cycle % (streamer - 5) == 0

def nestedProtocols : StreamerProtocols Unit where
  newMask streamer held maskBits := (reversedKeystream (nestedKeystream streamer) maskBits, held)

def nestedDevice : Device := ⟨nestedLevels, nestedKeystream, [false, true, true, false, true]⟩

def nestedStreamers : Streamers Unit := ⟨fun _ => (), fun _ => []⟩

end SystemModelManager

end Mast
