import Mast.Trivium.Masks

/-!
# The keystream is used once and in order

The mask of each request is the next piece of the keystream, backwards, as long as the bits that have to be generated for it can be counted in an `int`. Between two requests the residual mask and the generator hold together what has not been used: the rest of the last byte, and everything behind it.
-/

namespace Mast

open BitPacking BinaryVector Outcome

namespace Trivium

/-- How many bits of the last generated byte are left when a number of bits has been used. -/
def unusedBits (used : Nat) : Nat := 8 * bytesFor used - used

/-- The bits that must be generated for a request can be counted in an `int`. -/
def KeyFits (used maskBits : Nat) : Prop :=
  8 * bytesFor (used + maskBits) - 8 * bytesFor used < 2 ^ 31

def KeysFit : Nat → List Nat → Prop
  | _, [] => True
  | used, maskBits :: rest => KeyFits used maskBits ∧ KeysFit (used + maskBits) rest

/-- Between two requests: all whole bytes are generated that the bits used so far are in, and the rest of the last one is the residual mask. -/
structure Ready (stream : Nat → Bool) (used : Nat) (cipher : Cipher) : Prop where
  counter : cipher.counter = 8 * bytesFor used
  residual : cipher.residualXorMask = ofBits (Keystream.slice stream used (unusedBits used)) .notFixed
  free : cipher.xorMask.sizeProperty = .notFixed

theorem Ready.start (stream : Nat → Bool) : Ready stream 0 Cipher.start where
  counter := rfl
  residual := by
    have hnone : unusedBits 0 = 0 := by decide
    rw [hnone]
    exact empty_eq_ofBits
  free := rfl

theorem used_add_unusedBits (used : Nat) : used + unusedBits used = 8 * bytesFor used := by
  have hle := le_bytesFor used
  unfold unusedBits
  omega

theorem unusedBits_lt (used : Nat) : unusedBits used < 8 := by
  have hlt := bytesFor_lt used
  unfold unusedBits
  omega

/-- Requests take up the bits of their bytes. -/
theorem bytesFor_add {used maskBits : Nat} (hmore : unusedBits used < maskBits) :
    8 * bytesFor (used + maskBits) = 8 * bytesFor used +
      8 * ((maskBits - unusedBits used) / 8 + if (maskBits - unusedBits used) % 8 ≠ 0 then 1 else 0) := by
  unfold unusedBits bytesFor at *
  split <;> omega

theorem bytesFor_add_of_le {used maskBits : Nat} (hleft : maskBits ≤ unusedBits used) :
    bytesFor (used + maskBits) = bytesFor used := by
  unfold unusedBits bytesFor at *
  omega

/-- What `extendMask` leaves: the mask holds the keystream up to the end of the last generated byte. -/
def Cipher.extended (stream : Nat → Bool) (used maskBits : Nat) (residualXorMask : BinaryVector) :
    Cipher :=
  ⟨8 * bytesFor (used + maskBits),
    ofBits (Keystream.slice stream used (maskBits + unusedBits (used + maskBits))) .notFixed,
    residualXorMask⟩

/-! ### One mask -/

theorem assign_free {v rhs : BinaryVector} (hfree : v.sizeProperty = .notFixed)
    (hrhs : rhs.sizeProperty = .notFixed) : build v (assign rhs) = .ok rhs := by
  have hnotFixed : v.sizeProperty = .fixed → rhs.usedBits = v.usedBits := by
    rw [hfree]
    intro h
    cases h
  have hsame : assignedSizeProperty v.sizeProperty rhs.sizeProperty = rhs.sizeProperty := by
    rw [hfree, hrhs]
    rfl
  rw [build, assign_run hnotFixed, hsame]

/-- The bits that the generator gives, none if their number is negative. -/
theorem triviumXorMask_eq (stream : Nat → Bool) (counter : Nat) {xorBits : Nat}
    (haligned : xorBits % 8 = 0) (hbound : xorBits < 2 ^ 32) :
    triviumXorMask stream counter xorBits =
      if xorBits < 2 ^ 31 then
        .ok (ofBits (Keystream.slice stream counter xorBits) .notFixed, counter + xorBits)
      else .ok (ofBits [] .notFixed, counter) := by
  have hnumber : (BitVec.ofNat 32 xorBits).toInt.toNat = if xorBits < 2 ^ 31 then xorBits else 0 := by
    rw [BitVec.toInt_eq_toNat_cond, BitVec.toNat_ofNat, Nat.mod_eq_of_lt hbound]
    split <;> split <;> omega
  have hlength : (Keystream.slice stream counter (if xorBits < 2 ^ 31 then xorBits else 0)).length =
      if xorBits < 2 ^ 31 then xorBits else 0 := Keystream.slice_length _ _ _
  have hsize : uint32Size = 2 ^ 32 := rfl
  have hread := createFromHexString_bitsToHexBig
    (show (Keystream.slice stream counter (if xorBits < 2 ^ 31 then xorBits else 0)).length % 8 = 0 by
      rw [hlength]; split <;> omega)
    (by rw [hlength]; split <;> omega)
  simp only [triviumXorMask, getKeystream, hnumber, hread]
  by_cases hfits : xorBits < 2 ^ 31
  · simp only [if_pos hfits]
    rfl
  · simp only [if_neg hfits]
    rfl

section OneMask

variable {stream : Nat → Bool} {used : Nat} {cipher : Cipher} (hready : Ready stream used cipher)
  {maskBits : Nat} (hbound : maskBits < uint32Size)
include hready

theorem residual_usedBits : cipher.residualXorMask.usedBits = unusedBits used := by
  rw [hready.residual, ofBits_usedBits, Keystream.slice_length]

theorem extendMask_eq (hfits : KeyFits used maskBits) :
    extendMask stream cipher maskBits =
      .ok (.extended stream used maskBits cipher.residualXorMask, unusedBits (used + maskBits)) := by
  have hcount := residual_usedBits hready
  have hsum := used_add_unusedBits used
  have hnext := used_add_unusedBits (used + maskBits)
  have hassign := assign_free hready.free (show cipher.residualXorMask.sizeProperty = .notFixed by
    rw [hready.residual, ofBits_sizeProperty])
  refine bind_eq_ok.mpr ⟨_, hassign, ?_⟩
  simp only [hcount]
  by_cases hmore : maskBits > unusedBits used
  · have hbytes := bytesFor_add hmore
    rw [if_pos hmore]
    generalize (maskBits - unusedBits used) / 8 +
      (if (maskBits - unusedBits used) % 8 ≠ 0 then 1 else 0) = xorBytes at hbytes ⊢
    have hsize : uint32Size = 2 ^ 32 := rfl
    have hless : xorBytes * 8 < 2 ^ 31 := by
      unfold KeyFits at hfits
      omega
    have hleft : xorBytes * 8 - (maskBits - unusedBits used) = unusedBits (used + maskBits) := by
      omega
    have hall : unusedBits used + xorBytes * 8 = maskBits + unusedBits (used + maskBits) := by omega
    have hcounter : 8 * bytesFor used + xorBytes * 8 = 8 * bytesFor (used + maskBits) := by omega
    have hwhole : (xorBytes * 8) % 8 = 0 := by omega
    have hgenerated := triviumXorMask_eq stream cipher.counter hwhole (by omega)
    rw [if_pos hless, hready.counter, hcounter] at hgenerated
    have happend := append_ofBits (l := Keystream.slice stream used (unusedBits used))
      (p := .notFixed)
      (ofBits_wellFormed (Keystream.slice stream (8 * bytesFor used) (xorBytes * 8))
        .notFixed).exactBytes
      (by decide) (by
        have hlt := unusedBits_lt used
        rw [ofBits_usedBits, Keystream.slice_length, Keystream.slice_length]
        omega)
    rw [bits_ofBits, ← hsum, Keystream.slice_append, hall, hsum] at happend
    have hbuild : build cipher.residualXorMask
        (append (ofBits (Keystream.slice stream (8 * bytesFor used) (xorBytes * 8)) .notFixed)) =
          .ok (ofBits (Keystream.slice stream used (maskBits + unusedBits (used + maskBits)))
            .notFixed) := by
      rw [hready.residual, build, happend]
    rw [Nat.mod_eq_of_lt (by omega), hready.counter]
    refine bind_eq_ok.mpr ⟨_, hgenerated, bind_eq_ok.mpr ⟨_, hbuild, ?_⟩⟩
    rw [hleft]
    rfl
  · have hsame := bytesFor_add_of_le (show maskBits ≤ unusedBits used by omega)
    have hleft : unusedBits used - maskBits = unusedBits (used + maskBits) := by omega
    have hall : maskBits + unusedBits (used + maskBits) = unusedBits used := by omega
    rw [if_neg hmore, Cipher.extended, hsame, hleft, hall, hready.counter, ← hready.residual]
    rfl

theorem extendMask_short (hbound : maskBits < uint32Size) (hlong : ¬KeyFits used maskBits) :
    extendMask stream cipher maskBits =
      .ok (⟨cipher.counter, cipher.residualXorMask, cipher.residualXorMask⟩,
        unusedBits (used + maskBits)) := by
  have hcount := residual_usedBits hready
  have hassign := assign_free hready.free (show cipher.residualXorMask.sizeProperty = .notFixed by
    rw [hready.residual, ofBits_sizeProperty])
  unfold KeyFits at hlong
  have hmore : maskBits > unusedBits used := by
    by_contra hle
    rw [bytesFor_add_of_le (by omega)] at hlong
    omega
  have hbytes := bytesFor_add hmore
  have hsum := used_add_unusedBits used
  have hnext := used_add_unusedBits (used + maskBits)
  have hsize : uint32Size = 2 ^ 32 := rfl
  refine bind_eq_ok.mpr ⟨_, hassign, ?_⟩
  simp only [hcount]
  rw [if_pos hmore]
  generalize hxor : (maskBits - unusedBits used) / 8 +
    (if (maskBits - unusedBits used) % 8 ≠ 0 then 1 else 0) = xorBytes at hbytes ⊢
  have hle : xorBytes * 8 ≤ 2 ^ 32 := by
    split at hxor <;> omega
  have hgenerated : triviumXorMask stream cipher.counter (xorBytes * 8 % uint32Size) =
      .ok (ofBits [] .notFixed, cipher.counter) := by
    have hmod : xorBytes * 8 % uint32Size = xorBytes * 8 % 2 ^ 32 := rfl
    rw [hmod]
    by_cases hwraps : xorBytes * 8 = 2 ^ 32
    · rw [hwraps]
      exact triviumXorMask_eq stream cipher.counter rfl (by decide)
    · have hsame : xorBytes * 8 % 2 ^ 32 = xorBytes * 8 := by omega
      have hwhole : xorBytes * 8 % 8 = 0 := by omega
      rw [hsame, triviumXorMask_eq stream cipher.counter hwhole (by omega), if_neg (by omega)]
  have happend : build cipher.residualXorMask (append (ofBits [] .notFixed)) =
      .ok cipher.residualXorMask := by
    have hrun := append_ofBits (l := Keystream.slice stream used (unusedBits used))
      (p := .notFixed) (ofBits_wellFormed [] .notFixed).exactBytes (by decide) (by
        have hlt := unusedBits_lt used
        rw [ofBits_usedBits, Keystream.slice_length, List.length_nil]
        omega)
    rw [bits_ofBits, List.append_nil, ← hready.residual] at hrun
    rw [build, hrun]
  have hleft : xorBytes * 8 - (maskBits - unusedBits used) = unusedBits (used + maskBits) := by
    omega
  refine bind_eq_ok.mpr ⟨_, hgenerated, bind_eq_ok.mpr ⟨_, happend, ?_⟩⟩
  rw [hleft]
  rfl

end OneMask

section Extended

variable (stream : Nat → Bool) {used maskBits : Nat} {residualXorMask : BinaryVector}
  (hfits : KeyFits used maskBits)
include hfits

theorem maskBits_lt : maskBits + unusedBits (used + maskBits) + 7 < uint32Size := by
  have hsum := used_add_unusedBits used
  have hnext := used_add_unusedBits (used + maskBits)
  have hlt := unusedBits_lt used
  have hsize : uint32Size = 2 ^ 32 := rfl
  unfold KeyFits at hfits
  omega

/-- The mask of a request, and its prefixes, are pieces of the keystream backwards. -/
theorem extended_reverseSlice :
    (Cipher.extended stream used maskBits residualXorMask).xorMask.reverseSlice 0 maskBits =
      .ok (ofBits (Keystream.slice stream used maskBits).reverse .notFixed) := by
  have hlt := maskBits_lt hfits
  have hslice : BinaryVector.reverseSlice _ 0 maskBits = _ := reverseSlice_eq
    (ofBits_wellFormed (Keystream.slice stream used (maskBits + unusedBits (used + maskBits)))
      .notFixed).exactBytes
    (by rw [ofBits_usedBits, Keystream.slice_length]; omega)
    (by rw [ofBits_usedBits, Keystream.slice_length]; omega) (by omega)
  rw [bits_ofBits, List.drop_zero, Keystream.slice_take (Nat.le_add_right _ _)] at hslice
  exact hslice

/-- What is left of the mask is the residual mask of the next request. -/
theorem extended_slice :
    (Cipher.extended stream used maskBits residualXorMask).xorMask.slice maskBits
        (unusedBits (used + maskBits)) =
      .ok (ofBits (Keystream.slice stream (used + maskBits) (unusedBits (used + maskBits)))
        .notFixed) := by
  have hlt := maskBits_lt hfits
  have hslice : BinaryVector.slice _ maskBits (unusedBits (used + maskBits)) = _ := slice_eq
    (ofBits_wellFormed (Keystream.slice stream used (maskBits + unusedBits (used + maskBits)))
      .notFixed).exactBytes
    (by rw [ofBits_usedBits, Keystream.slice_length]; omega)
    (by rw [ofBits_usedBits, Keystream.slice_length])
  rw [bits_ofBits, Keystream.slice_drop (Nat.le_add_right _ _), Nat.add_sub_cancel_left,
    List.take_of_length_le (by rw [Keystream.slice_length])] at hslice
  exact hslice

omit hfits in
theorem extended_ready (residual : BinaryVector) (hresidual : residual =
      ofBits (Keystream.slice stream (used + maskBits) (unusedBits (used + maskBits))) .notFixed) :
    Ready stream (used + maskBits)
      { Cipher.extended stream used maskBits residualXorMask with residualXorMask := residual } where
  counter := rfl
  residual := hresidual
  free := rfl

end Extended

/-! ### One request -/

theorem reverseSlice_short {v result : BinaryVector} {maskBits : Nat} (hbound : maskBits < uint32Size)
    (hshort : v.usedBits < maskBits) : v.reverseSlice 0 maskBits ≠ .ok result := by
  intro hreverse
  have hsome : maskBits ≠ 0 := by omega
  rw [reverseSlice, if_neg hsome] at hreverse
  obtain ⟨original, hslice, -⟩ := bind_eq_ok.mp hreverse
  have hlast := (slice_within hsome hslice).2.2
  rw [Nat.zero_add, Nat.mod_eq_of_lt hbound] at hlast
  omega

theorem slice_whole {v : BinaryVector} (hv : v.Stored) :
    v.slice 0 v.usedBits = .ok (ofBits v.bits .notFixed) := by
  have hslice := slice_eq hv.exactBytes hv.usedBits_lt (Nat.le_of_eq (Nat.zero_add v.usedBits))
  rwa [List.drop_zero, List.take_of_length_le (Nat.le_of_eq hv.exactBytes.bits_length)] at hslice

theorem bitwiseXor_eq {l mask : List Bool} (hlength : mask.length = l.length) :
    bitwiseXor (ofBits l .notFixed) (ofBits mask .notFixed) =
      .ok (ofBits (List.zipWith xor l mask) .notFixed) := by
  have hrun := combine_run (ofBits_wellFormed l .notFixed).exactBytes
    (ofBits_wellFormed mask .notFixed).exactBytes
    (by rw [ofBits_usedBits, ofBits_usedBits, hlength]) byteBits_xor
  rw [bits_ofBits, bits_ofBits] at hrun
  have hcopy : (ofBits l .notFixed).copy = ofBits l .notFixed := rfl
  rw [bitwiseXor, hcopy, build, xorAssign, hrun]
  rfl

/-- A request of the translator as the program can hold it, with an answer of the same length. -/
structure Exchange.Answered (exchange : Exchange) : Prop where
  toSut : exchange.toSut.Stored
  fromSut : exchange.fromSut.Stored
  sameLength : exchange.fromSut.usedBits = exchange.toSut.usedBits

def Exchange.ciphered (exchange : Exchange) (mask : List Bool) : Exchange :=
  ⟨ofBits (List.zipWith xor exchange.toSut.bits mask) .notFixed,
    ofBits (List.zipWith xor exchange.fromSut.bits mask) .notFixed⟩

section OneRequest

variable {stream : Nat → Bool} {used : Nat} {cipher : Cipher} (hready : Ready stream used cipher)
include hready

/-- The mask of a request is the next piece of the keystream backwards, and the next request finds the keystream where this one has left it. -/
theorem newMask_eq {maskBits : Nat} (hfits : KeyFits used maskBits) :
    ∃ next, newMask stream cipher maskBits =
        .ok (ofBits (Keystream.slice stream used maskBits).reverse .notFixed, next) ∧
      Ready stream (used + maskBits) next := by
  have hresidual : cipher.residualXorMask.sizeProperty = .notFixed := by
    rw [hready.residual, ofBits_sizeProperty]
  refine ⟨_, bind_eq_ok.mpr ⟨_, extendMask_eq hready hfits, bind_eq_ok.mpr ⟨_,
    extended_slice stream hfits, bind_eq_ok.mpr ⟨_, assign_free hresidual rfl,
      bind_eq_ok.mpr ⟨_, extended_reverseSlice stream hfits, rfl⟩⟩⟩⟩, extended_ready stream _ rfl⟩

theorem residual_short {maskBits : Nat} (hlong : ¬KeyFits used maskBits) :
    cipher.residualXorMask.usedBits < maskBits := by
  rw [residual_usedBits hready]
  by_contra hle
  unfold KeyFits at hlong
  rw [bytesFor_add_of_le (by omega)] at hlong
  omega

/-- A request that does not fit is refused: its mask cannot be cut out of the residual one. -/
theorem newMask_refused {maskBits : Nat} (hbound : maskBits < uint32Size)
    (hlong : ¬KeyFits used maskBits) (result : BinaryVector × Cipher) :
    newMask stream cipher maskBits ≠ .ok result := by
  intro hmask
  obtain ⟨extended, hextended, hmask⟩ := bind_eq_ok.mp hmask
  obtain rfl := Except.ok.inj ((extendMask_short hready hbound hlong).symm.trans hextended)
  obtain ⟨residual, -, hmask⟩ := bind_eq_ok.mp hmask
  obtain ⟨residualXorMask, -, hmask⟩ := bind_eq_ok.mp hmask
  obtain ⟨currentMask, hreverse, -⟩ := bind_eq_ok.mp hmask
  exact reverseSlice_short hbound (residual_short hready hlong) hreverse

/-- The vector of a request is ciphered with the next piece of the keystream. -/
theorem triviumEcrypt_eq {plaintext : BinaryVector} (hplaintext : plaintext.Stored)
    (hfits : KeyFits used plaintext.usedBits) :
    ∃ residual,
      triviumEcrypt stream cipher plaintext =
        .ok (ofBits (List.zipWith xor plaintext.bits
            (Keystream.slice stream used plaintext.usedBits).reverse) .notFixed,
          { Cipher.extended stream used plaintext.usedBits cipher.residualXorMask with
            residualXorMask := residual }) ∧
      Ready stream (used + plaintext.usedBits)
        { Cipher.extended stream used plaintext.usedBits cipher.residualXorMask with
          residualXorMask := residual } := by
  have hresidual : cipher.residualXorMask.sizeProperty = .notFixed := by
    rw [hready.residual, ofBits_sizeProperty]
  have hlength : (Keystream.slice stream used plaintext.usedBits).reverse.length =
      plaintext.bits.length := by
    rw [List.length_reverse, Keystream.slice_length, hplaintext.exactBytes.bits_length]
  refine ⟨_, bind_eq_ok.mpr ⟨_, extendMask_eq hready hfits, bind_eq_ok.mpr ⟨_,
    slice_whole hplaintext, bind_eq_ok.mpr ⟨_, extended_reverseSlice stream hfits,
      bind_eq_ok.mpr ⟨_, bitwiseXor_eq hlength, bind_eq_ok.mpr ⟨_, extended_slice stream hfits,
        bind_eq_ok.mpr ⟨_, assign_free hresidual rfl, rfl⟩⟩⟩⟩⟩⟩, extended_ready stream _ rfl⟩

/-- Both vectors of a request are ciphered with the mask of that request. -/
theorem transformationCallback_eq {exchange : Exchange} (hexchange : exchange.Answered)
    (hfits : KeyFits used exchange.toSut.usedBits) :
    ∃ next,
      transformationCallback stream cipher exchange =
        .ok (exchange.ciphered (Keystream.slice stream used exchange.toSut.usedBits).reverse, next) ∧
      Ready stream (used + exchange.toSut.usedBits) next := by
  obtain ⟨residual, hciphertext, hnext⟩ := triviumEcrypt_eq hready hexchange.toSut hfits
  have hlength : (Keystream.slice stream used exchange.toSut.usedBits).reverse.length =
      exchange.fromSut.bits.length := by
    rw [List.length_reverse, Keystream.slice_length, hexchange.fromSut.exactBytes.bits_length,
      hexchange.sameLength]
  refine ⟨_, bind_eq_ok.mpr ⟨_, hciphertext, bind_eq_ok.mpr ⟨_, slice_whole hexchange.fromSut,
    bind_eq_ok.mpr ⟨_, ?_, bind_eq_ok.mpr ⟨_, bitwiseXor_eq hlength, rfl⟩⟩⟩⟩, hnext⟩
  rw [hexchange.sameLength]
  exact extended_reverseSlice stream hfits

theorem transformationCallback_refused {exchange : Exchange} (hexchange : exchange.Answered)
    (hlong : ¬KeyFits used exchange.toSut.usedBits) (result : Exchange × Cipher) :
    transformationCallback stream cipher exchange ≠ .ok result := by
  intro hcallback
  have hbound := hexchange.toSut.usedBits_lt
  obtain ⟨ciphered, hciphered, -⟩ := bind_eq_ok.mp hcallback
  obtain ⟨extended, hextended, hciphered⟩ := bind_eq_ok.mp hciphered
  obtain rfl := Except.ok.inj ((extendMask_short hready hbound hlong).symm.trans hextended)
  obtain ⟨plain, -, hciphered⟩ := bind_eq_ok.mp hciphered
  obtain ⟨mask, hreverse, -⟩ := bind_eq_ok.mp hciphered
  exact reverseSlice_short hbound (residual_short hready hlong) hreverse

end OneRequest

/-! ### Runs -/

/-- The masks of a sequence of requests are the consecutive pieces of the keystream backwards, and together they use the keystream from its beginning without a gap. -/
structure MaskLaw (stream : Nat → Bool) (lengths : List Nat) : Prop where
  masks : newMasks stream .start lengths =
    .ok ((Keystream.pieces stream 0 lengths).map fun piece => ofBits piece.reverse .notFixed)
  whole : ((newMasks stream .start lengths).map fun masks =>
    (masks.map fun mask => mask.bits.reverse).flatten) = .ok (Keystream.slice stream 0 lengths.sum)

/-- Both vectors of each request are ciphered with the piece of the keystream that is the request's own. -/
def CipherLaw (stream : Nat → Bool) (exchanges : List Exchange) : Prop :=
  transformationCallbacks stream .start exchanges =
    .ok (List.zipWith (fun exchange piece => exchange.ciphered piece.reverse) exchanges
      (Keystream.pieces stream 0 (exchanges.map fun exchange => exchange.toSut.usedBits)))

theorem newMasks_iff {stream : Nat → Bool} {used : Nat} {cipher : Cipher}
    (hready : Ready stream used cipher) {lengths : List Nat}
    (hlengths : ∀ maskBits ∈ lengths, maskBits < uint32Size) :
    newMasks stream cipher lengths = .ok ((Keystream.pieces stream used lengths).map
        fun piece => ofBits piece.reverse .notFixed) ↔ KeysFit used lengths := by
  induction lengths generalizing used cipher with
  | nil => exact iff_of_true rfl trivial
  | cons maskBits rest ih =>
    have hbound := hlengths maskBits List.mem_cons_self
    by_cases hfits : KeyFits used maskBits
    · obtain ⟨next, hmask, hnext⟩ := newMask_eq hready hfits
      rw [KeysFit, and_iff_right hfits,
        ← ih hnext fun other hother => hlengths other (List.mem_cons_of_mem _ hother)]
      constructor
      · intro hmasks
        obtain ⟨result, hfirst, hmasks⟩ := bind_eq_ok.mp hmasks
        obtain rfl := Except.ok.inj (hmask.symm.trans hfirst)
        obtain ⟨masks, hrest, hmasks⟩ := bind_eq_ok.mp hmasks
        rw [hrest, (List.cons.inj (Except.ok.inj hmasks)).2]
      · intro hmasks
        exact bind_eq_ok.mpr ⟨_, hmask, bind_eq_ok.mpr ⟨_, hmasks, rfl⟩⟩
    · refine iff_of_false ?_ fun hkeys => hfits hkeys.1
      intro hmasks
      obtain ⟨result, hmask, -⟩ := bind_eq_ok.mp hmasks
      exact newMask_refused hready hbound hfits result hmask

theorem maskLaw_iff (stream : Nat → Bool) {lengths : List Nat}
    (hlengths : ∀ maskBits ∈ lengths, maskBits < uint32Size) :
    MaskLaw stream lengths ↔ KeysFit 0 lengths := by
  have hmasks := newMasks_iff (Ready.start stream) hlengths
  constructor
  · intro hlaw
    exact hmasks.mp hlaw.masks
  · intro hfit
    have hmasks := hmasks.mpr hfit
    refine ⟨hmasks, ?_⟩
    rw [hmasks, ← Keystream.flatten_pieces]
    simp [Except.map, Function.comp_def]

theorem transformationCallbacks_iff {stream : Nat → Bool} {used : Nat} {cipher : Cipher}
    (hready : Ready stream used cipher) {exchanges : List Exchange}
    (hexchanges : ∀ exchange ∈ exchanges, exchange.Answered) :
    transformationCallbacks stream cipher exchanges =
        .ok (List.zipWith (fun exchange piece => exchange.ciphered piece.reverse) exchanges
          (Keystream.pieces stream used (exchanges.map fun exchange => exchange.toSut.usedBits))) ↔
      KeysFit used (exchanges.map fun exchange => exchange.toSut.usedBits) := by
  induction exchanges generalizing used cipher with
  | nil => exact iff_of_true rfl trivial
  | cons exchange rest ih =>
    have hanswered := hexchanges exchange List.mem_cons_self
    rw [List.map_cons]
    by_cases hfits : KeyFits used exchange.toSut.usedBits
    · obtain ⟨next, hcallback, hnext⟩ := transformationCallback_eq hready hanswered hfits
      rw [KeysFit, and_iff_right hfits,
        ← ih hnext fun other hother => hexchanges other (List.mem_cons_of_mem _ hother)]
      constructor
      · intro hcallbacks
        obtain ⟨result, hfirst, hcallbacks⟩ := bind_eq_ok.mp hcallbacks
        obtain rfl := Except.ok.inj (hcallback.symm.trans hfirst)
        obtain ⟨ciphered, hrest, hcallbacks⟩ := bind_eq_ok.mp hcallbacks
        rw [hrest, (List.cons.inj (Except.ok.inj hcallbacks)).2]
      · intro hcallbacks
        exact bind_eq_ok.mpr ⟨_, hcallback, bind_eq_ok.mpr ⟨_, hcallbacks, rfl⟩⟩
    · refine iff_of_false ?_ fun hkeys => hfits hkeys.1
      intro hcallbacks
      obtain ⟨result, hcallback, -⟩ := bind_eq_ok.mp hcallbacks
      exact transformationCallback_refused hready hanswered hfits result hcallback

/-- In every run the masks of the streamer and those of the translator are the consecutive pieces of the keystream, if and only if the bits to generate for each request can be counted in an `int`. -/
theorem keystream_iff (stream : Nat → Bool) {lengths : List Nat}
    (hlengths : ∀ maskBits ∈ lengths, maskBits < uint32Size) {exchanges : List Exchange}
    (hexchanges : ∀ exchange ∈ exchanges, exchange.Answered) :
    (MaskLaw stream lengths ↔ KeysFit 0 lengths) ∧
      (CipherLaw stream exchanges ↔
        KeysFit 0 (exchanges.map fun exchange => exchange.toSut.usedBits)) :=
  ⟨maskLaw_iff stream hlengths, transformationCallbacks_iff (Ready.start stream) hexchanges⟩

theorem keystream_three_requests :
    (MaskLaw (fun i => i % 3 = 0) [3, 10, 2] ↔ KeysFit 0 [3, 10, 2]) ∧
      (CipherLaw (fun i => i % 3 = 0) [⟨ofBits [true, false, true] .notFixed,
          ofBits [false, false, true] .notFixed⟩] ↔ KeysFit 0 [3]) := by
  have hlengths : ∀ maskBits ∈ [3, 10, 2], maskBits < uint32Size := by decide
  refine keystream_iff (fun i => i % 3 = 0) hlengths ?_
  intro exchange hexchange
  rw [List.mem_singleton.mp hexchange]
  exact ⟨⟨(ofBits_wellFormed _ _).exactBytes, by decide⟩,
    ⟨(ofBits_wellFormed _ _).exactBytes, by decide⟩, rfl⟩

/-- A mask of 2 ^ 31 bits is refused: the generator is asked for a negative number of bits. -/
theorem not_maskLaw_large : ¬MaskLaw (fun _ => false) [2147483648] := by
  intro hlaw
  have hlengths : ∀ maskBits ∈ [2147483648], maskBits < uint32Size := by decide
  have hfits := ((maskLaw_iff (fun _ => false) hlengths).mp hlaw).1
  revert hfits
  unfold KeyFits
  decide

end Trivium

end Mast
