import Mast.BinaryVector.FixedSize
import Mast.BinaryVector.RightAligned
import Mast.BinaryVector.TextBits

/-!
# The representation invariant

`Built` is the closure of the public calls: every vector a program can hold is the result of a call on vectors that earlier calls built. `Call.Safe` excludes the calls that leave the intended representation: sums of lengths beyond 32 bits, and whole bytes of ones that `appendBits` inserts after an incomplete byte. Whatever is built by safe calls is in the intended representation.
-/

namespace Mast

open BitPacking

namespace BinaryVector

/-- A vector in the intended representation whose count is a `uint32_t`. -/
structure Intact (v : BinaryVector) : Prop where
  wellFormed : v.WellFormed
  usedBits_lt : v.usedBits < uint32Size

theorem Intact.stored {v : BinaryVector} (hv : v.Intact) : v.Stored :=
  ⟨hv.wellFormed.exactBytes, hv.usedBits_lt⟩

theorem ofBits_intact {l : List Bool} (hlength : l.length < uint32Size) (p : SizeProperty) :
    (ofBits l p).Intact :=
  ⟨ofBits_wellFormed l p, hlength⟩

theorem Intact.exists_ofBits {v : BinaryVector} (hv : v.Intact) :
    ∃ l p, l.length < uint32Size ∧ v = ofBits l p := by
  refine ⟨v.bits, v.sizeProperty, ?_, hv.wellFormed.eq_ofBits⟩
  rw [hv.wellFormed.exactBytes.bits_length]
  exact hv.usedBits_lt

theorem Intact.with_sizeProperty {v : BinaryVector} (hv : v.Intact) (p : SizeProperty) :
    Intact { v with sizeProperty := p } := by
  obtain ⟨l, q, hlength, rfl⟩ := hv.exists_ofBits
  exact ofBits_intact hlength p

/-- A call that leaves its target in the intended representation, whether it returns or throws. -/
def LeavesIntact (mutation : Mutation Unit) (v : BinaryVector) : Prop :=
  match mutation.run v with
  | .ok _ v' => v'.Intact
  | .error .undefinedBehaviour _ => False
  | .error _ v' => v'.Intact

/-- A call that returns a vector in the intended representation, or throws. -/
def MakesIntact (result : Except Fault BinaryVector) : Prop :=
  match result with
  | .ok v => v.Intact
  | .error fault => fault ≠ .undefinedBehaviour

theorem Rejects.leavesIntact {mutation : Mutation Unit} {v : BinaryVector}
    (hrejects : Rejects mutation v) (hv : v.Intact) : LeavesIntact mutation v := by
  obtain ⟨fault, hfault, hrun⟩ := hrejects
  rw [LeavesIntact, hrun]
  cases fault <;> first | exact hv | exact absurd rfl hfault

theorem leavesIntact_ok {mutation : Mutation Unit} {v v' : BinaryVector}
    (hrun : mutation.run v = .ok () v') (hv' : v'.Intact) : LeavesIntact mutation v := by
  rw [LeavesIntact, hrun]
  exact hv'

/-! ### Ones after an incomplete byte -/

/-- What `appendBits` may append to a vector without leaving the intended representation. -/
def SafeOnes (v : BinaryVector) (bitIsOne : Bool) (count : Nat) : Prop :=
  v.usedBits % 8 = 0 ∨ bitIsOne = false ∨ count < 8 ∨
    v.sizeProperty ≠ .fixed ∧ 8 ≤ v.usedBits % 8 + count % 8

private theorem alignedBits_ones {count : Nat} (hle : count ≤ 8) :
    alignedBits (bitByte true) count .right = List.replicate count true := by
  rw [alignedBits, byteBits_bitByte, List.drop_replicate]
  congr 1
  omega

private theorem bitByte_true_or (byte : Byte) : bitByte true ||| byte = bitByte true := by
  have hones : bitByte true = BitVec.allOnes 8 := rfl
  rw [hones, BitVec.allOnes_or]

/-- A last byte full of ones does not change when more ones are or-ed into it. -/
private theorem modifyLast_ones (data : List Byte) {wholeBytes : Nat} (hwhole : 0 < wholeBytes)
    (byte : Byte) :
    (data ++ List.replicate wholeBytes (bitByte true)).modifyLast (· ||| byte) =
      data ++ List.replicate wholeBytes (bitByte true) := by
  obtain ⟨count, rfl⟩ : ∃ count, wholeBytes = count + 1 := ⟨wholeBytes - 1, by omega⟩
  rw [List.replicate_succ', ← List.append_assoc, List.modifyLast_concat, bitByte_true_or]

/-- When the rest of the ones reaches the next byte, the zeros that completed the last byte have become part of the vector. -/
theorem pushBits_ones {l : List Bool} {p : SizeProperty} {wholeBytes count : Nat}
    (hincomplete : l.length % 8 ≠ 0) (hwhole : 0 < wholeBytes) (hle : count < 8)
    (hreaches : 8 ≤ l.length % 8 + count) :
    (BinaryVector.pushBits ⟨pack l ++ List.replicate wholeBytes (bitByte true),
        l.length + 8 * wholeBytes, p⟩ (alignLeft (bitByte true) count .right) count).data =
      pack (l ++ List.replicate (8 - l.length % 8) false ++
        List.replicate (8 * wholeBytes + count - (8 - l.length % 8)) true) := by
  have hmod : (l.length + 8 * wholeBytes) % 8 = l.length % 8 := by omega
  have hzeros : 8 * bytesFor l.length - l.length = 8 - l.length % 8 := by
    unfold bytesFor
    omega
  have hwritten : unpack (pack l ++ List.replicate wholeBytes (bitByte true)) =
      l ++ List.replicate (8 - l.length % 8) false ++ List.replicate (8 * wholeBytes) true := by
    rw [unpack_append, unpack_pack, hzeros, unpack_replicate_bitByte]
  have hsame := modifyLast_ones (pack l) hwhole
  by_cases hfits : l.length % 8 + count ≤ 8
  · have hcount : 8 * wholeBytes + count - (8 - l.length % 8) = 8 * wholeBytes := by omega
    rw [pushBits_fits (by rwa [hmod]) (by rwa [hmod]), hsame, hcount, ← hwritten, pack_unpack]
  · have hnext : byteBits (alignLeft (bitByte true) count .right <<< (8 - l.length % 8)) =
        List.replicate (count - (8 - l.length % 8)) true ++
          List.replicate (16 - (l.length % 8 + count)) false := by
      rw [byteBits_shiftLeft _ (by omega), byteBits_alignLeft hle.le, alignedBits_ones hle.le,
        List.drop_append_of_le_length (by rw [List.length_replicate]; omega), List.drop_replicate,
        List.append_assoc, ← List.replicate_add]
      congr 2
      omega
    rw [pushBits_splits (by rwa [hmod]) (by rw [hmod]; omega)]
    simp only [hmod, hsame]
    refine eq_pack (16 - (l.length % 8 + count)) ?_ (by omega)
    have hcount : 8 * wholeBytes + count - (8 - l.length % 8) =
        8 * wholeBytes + (count - (8 - l.length % 8)) := by omega
    rw [unpack_append, hwritten, unpack_cons, unpack_nil, List.append_nil, hnext, hcount,
      List.replicate_add (8 * wholeBytes)]
    simp only [List.append_assoc]

theorem appendBits_ones_ofBits {l : List Bool} {p : SizeProperty} {count : Nat}
    (hincomplete : l.length % 8 ≠ 0) (hreaches : 8 ≤ l.length % 8 + count % 8)
    (hwhole : 8 ≤ count) (hfree : p ≠ .fixed) (hbound : l.length + count < uint32Size) :
    ∃ added, added.length = count ∧
      (appendBits true count).run (ofBits l p) = .ok () (ofBits (l ++ added) p) := by
  have hused : (ofBits l p).usedBits < uint32Size := by
    rw [ofBits_usedBits]
    omega
  have hlast : count % 8 ≠ 0 := by omega
  have hsum : 8 * (count / 8) + count % 8 = count := Nat.div_add_mod count 8
  have hinserted : (ofBits l p).insertBytes (bitByte true) (count / 8) =
      ⟨pack l ++ List.replicate (count / 8) (bitByte true), l.length + 8 * (count / 8), p⟩ := by
    rw [insertBytes, ofBits_usedBits, Nat.mod_eq_of_lt (by omega)]
    rfl
  have hback : ((ofBits l p).insertBytes (bitByte true) (count / 8)).BackValid :=
    insertBytes_backValid (ofBits_backValid l p) _ _
  have hdata := pushBits_ones (p := p) hincomplete (show 0 < count / 8 by omega)
    (show count % 8 < 8 by omega) hreaches
  refine ⟨List.replicate (8 - l.length % 8) false ++
    List.replicate (8 * (count / 8) + count % 8 - (8 - l.length % 8)) true, ?_, ?_⟩
  · rw [List.length_append, List.length_replicate, List.length_replicate]
    omega
  · have hlength : (l ++ List.replicate (8 - l.length % 8) false ++
        List.replicate (8 * (count / 8) + count % 8 - (8 - l.length % 8)) true).length =
        (l.length + 8 * (count / 8) + count % 8) % uint32Size := by
      rw [Nat.mod_eq_of_lt (show l.length + 8 * (count / 8) + count % 8 < uint32Size by omega)]
      simp only [List.length_append, List.length_replicate]
      omega
    rw [appendBits_run hused, if_neg hlast, append8_run (by omega) (by omega) hfree hback,
      hinserted, ofBits.eq_1 (l ++ _), ← List.append_assoc, ← hdata, hlength]
    rfl

theorem appendBits_safe_ofBits {l : List Bool} {p : SizeProperty} {bitIsOne : Bool} {count : Nat}
    (hones : l.length % 8 = 0 ∨ bitIsOne = false ∨ count < 8 ∨ 8 ≤ l.length % 8 + count % 8)
    (hfree : p ≠ .fixed) (hbound : l.length + count < uint32Size) :
    ∃ added, added.length = count ∧
      (appendBits bitIsOne count).run (ofBits l p) = .ok () (ofBits (l ++ added) p) := by
  by_cases hplain : l.length % 8 = 0 ∨ bitIsOne = false ∨ count < 8
  · exact ⟨_, List.length_replicate, appendBits_ofBits bitIsOne count hplain hfree hbound⟩
  · push Not at hplain
    obtain ⟨hincomplete, hone, hwhole⟩ := hplain
    obtain rfl : bitIsOne = true := by simpa using hone
    have hreaches : 8 ≤ l.length % 8 + count % 8 := by
      rcases hones with h | h | h | h
      · exact absurd h hincomplete
      · exact absurd h hone
      · omega
      · exact h
    exact appendBits_ones_ofBits hincomplete hreaches hwhole hfree hbound

/-! ### Safe calls -/

/-- The condition on a call and its target under which the target stays in the intended representation. -/
def Mutator.Safe (mutator : Mutator) (v : BinaryVector) : Prop :=
  match mutator with
  | append rhs => v.sizeProperty = .fixed ∨ v.usedBits + rhs.usedBits < uint32Size
  | appendUInt width _ numberOfBits _ =>
    (v.sizeProperty = .fixed ∨ numberOfBits = 0 ∨ width.bits < numberOfBits) ∨
      v.usedBits + numberOfBits < uint32Size
  | appendChunks numberOfBits _ chunks =>
    (v.sizeProperty = .fixed ∨ numberOfBits = 0 ∨ chunks.length * 8 % 256 < numberOfBits) ∨
      v.usedBits + numberOfBits < uint32Size
  | appendBits bitIsOne count =>
    SafeOnes v bitIsOne count ∧
      (v.sizeProperty = .fixed ∧ v.usedBits + 8 * (count.val / 8) < uint32Size ∨
        v.usedBits + count.val < uint32Size)
  | prependBits bitsCount _ =>
    bitsCount.val + 7 < uint32Size ∧
      (v.sizeProperty = .fixed ∨ bitsCount.val + v.usedBits < uint32Size)
  | setSlice startOffset value =>
    (value.usedBits = 0 ∨ v.usedBits ≤ startOffset ∨
      v.usedBits < (startOffset + value.usedBits) % uint32Size) ∨
        startOffset + value.usedBits < uint32Size
  | _ => True

section

variable {v : BinaryVector} (hv : v.Intact)

include hv

theorem append_leavesIntact {rhs : BinaryVector} (hrhs : rhs.Intact)
    (hsafe : (Mutator.append rhs).Safe v) : LeavesIntact (append rhs) v := by
  by_cases hfixed : v.sizeProperty = .fixed
  · exact (append_rejects hfixed rhs).leavesIntact hv
  · have hbound := hsafe.resolve_left hfixed
    obtain ⟨l, p, hlength, rfl⟩ := hv.exists_ofBits
    refine leavesIntact_ok (append_ofBits hrhs.stored.exactBytes hfixed hbound) ?_
    apply ofBits_intact
    rw [List.length_append, hrhs.stored.exactBytes.bits_length]
    exact hbound

theorem appendUInt_leavesIntact {width : UIntWidth} {value : BitVec width.bits}
    {numberOfBits : Nat} {alignment : BitsAlignment}
    (hsafe : (Mutator.appendUInt width value numberOfBits alignment).Safe v) :
    LeavesIntact (appendUInt width value numberOfBits alignment) v := by
  by_cases hrejects : v.sizeProperty = .fixed ∨ numberOfBits = 0 ∨ width.bits < numberOfBits
  · exact (appendUInt_rejects hrejects value alignment).leavesIntact hv
  · have hbound := hsafe.resolve_left hrejects
    push Not at hrejects
    obtain ⟨l, p, hlength, rfl⟩ := hv.exists_ofBits
    obtain ⟨added, hadded, hrun⟩ := appendUInt_ofBits (by omega) hrejects.2.2 hrejects.1 hbound value
      alignment
    refine leavesIntact_ok hrun (ofBits_intact ?_ p)
    rwa [List.length_append, hadded]

theorem appendChunks_leavesIntact {numberOfBits : Nat} {alignment : BitsAlignment}
    {chunks : List Byte} (hsafe : (Mutator.appendChunks numberOfBits alignment chunks).Safe v) :
    LeavesIntact (appendChunks numberOfBits alignment chunks) v := by
  by_cases hrejects : v.sizeProperty = .fixed ∨ numberOfBits = 0 ∨
      chunks.length * 8 % 256 < numberOfBits
  · exact (appendChunks_rejects hrejects alignment).leavesIntact hv
  · have hbound := hsafe.resolve_left hrejects
    push Not at hrejects
    obtain ⟨l, p, hlength, rfl⟩ := hv.exists_ofBits
    obtain ⟨added, hadded, hrun⟩ := appendChunks_ofBits alignment (by omega)
      hrejects.2.2 hrejects.1 hbound
    refine leavesIntact_ok hrun (ofBits_intact ?_ p)
    rwa [List.length_append, hadded]

theorem appendBits_leavesIntact {bitIsOne : Bool} {count : Fin uint32Size}
    (hsafe : (Mutator.appendBits bitIsOne count).Safe v) :
    LeavesIntact (appendBits bitIsOne count) v := by
  obtain ⟨hones, hbound⟩ := hsafe
  obtain ⟨l, p, hlength, rfl⟩ := hv.exists_ofBits
  simp only [SafeOnes, ofBits_usedBits, ofBits_sizeProperty] at hones hbound
  by_cases hfixed : p = .fixed
  · have hplain : l.length % 8 = 0 ∨ bitIsOne = false ∨ count.val < 8 := by tauto
    have hinsert := insertBytes_ofBits (p := p)
      (hplain.imp_right (Or.imp_right fun hfew => Nat.div_eq_of_lt hfew)) (by omega)
    have hinserted : Intact ((ofBits l p).insertBytes (bitByte bitIsOne) (count.val / 8)) := by
      rw [hinsert]
      apply ofBits_intact
      rw [List.length_append, List.length_replicate]
      omega
    rw [LeavesIntact, appendBits_run hlength]
    by_cases hlast : count.val % 8 = 0
    · rw [if_pos hlast]
      exact hinserted
    · rw [if_neg hlast]
      have hrejects : Rejects (append8 (bitByte bitIsOne) (count.val % 8) .right)
          ((ofBits l p).insertBytes (bitByte bitIsOne) (count.val / 8)) :=
        append8_rejects (.inl hfixed) _ _
      exact hrejects.leavesIntact hinserted
  · have hbound : l.length + count.val < uint32Size := by tauto
    obtain ⟨added, hadded, hrun⟩ := appendBits_safe_ofBits (by tauto) hfixed hbound
    refine leavesIntact_ok hrun (ofBits_intact ?_ p)
    rwa [List.length_append, hadded]

omit hv in
private theorem not_wellFormed_of_ones {front : List Byte} {usedBits : Nat} {p : SizeProperty}
    (hincomplete : usedBits % 8 ≠ 0) :
    ¬WellFormed ⟨front ++ [bitByte true], usedBits, p⟩ := by
  rintro ⟨hexact, hzero⟩
  have hend : usedBits ≤ 8 * front.length + 7 := by
    rw [ExactBytes, bytesFor, List.length_append, List.length_singleton] at hexact
    simp only at hexact
    omega
  have hlast : true ∈ (unpack (front ++ [bitByte true])).drop usedBits := by
    have hunpack : unpack (front ++ [bitByte true]) =
        (unpack front ++ List.replicate 7 true) ++ [true] := by
      rw [unpack_append, unpack_cons, unpack_nil, List.append_nil, byteBits_bitByte,
        List.append_assoc]
      rfl
    rw [hunpack, List.drop_append_of_le_length (by simpa using hend)]
    simp
  exact Bool.noConfusion (hzero true hlast)

/-- As long as the count fits in 32 bits, `SafeOnes` is the exact condition on `appendBits`. -/
theorem appendBits_leavesIntact_iff {bitIsOne : Bool} {count : Fin uint32Size}
    (hbound : v.usedBits + count.val < uint32Size) :
    LeavesIntact (appendBits bitIsOne count) v ↔ SafeOnes v bitIsOne count := by
  constructor
  · intro hleaves
    by_contra hones
    obtain ⟨l, p, hlength, rfl⟩ := hv.exists_ofBits
    simp only [SafeOnes, ofBits_usedBits, ofBits_sizeProperty, not_or] at hones hbound
    obtain ⟨hincomplete, hone, hwhole, hreaches⟩ := hones
    obtain rfl : bitIsOne = true := by simpa using hone
    have hbytes : 0 < count.val / 8 := by omega
    have hinserted : (ofBits l p).insertBytes (bitByte true) (count.val / 8) =
        ⟨pack l ++ List.replicate (count.val / 8) (bitByte true),
          l.length + 8 * (count.val / 8), p⟩ := by
      rw [insertBytes, ofBits_usedBits, Nat.mod_eq_of_lt (by omega)]
      rfl
    -- every outcome has its last inserted byte at the end, and is not byte aligned
    have hbroken : ∀ usedBits, usedBits % 8 ≠ 0 →
        ¬Intact ⟨pack l ++ List.replicate (count.val / 8) (bitByte true), usedBits, p⟩ := by
      intro usedBits hused hintact
      obtain ⟨count', hcount'⟩ : ∃ count', count.val / 8 = count' + 1 :=
        ⟨count.val / 8 - 1, by omega⟩
      rw [hcount', List.replicate_succ', ← List.append_assoc] at hintact
      exact not_wellFormed_of_ones hused hintact.wellFormed
    rw [LeavesIntact, appendBits_run hlength, hinserted] at hleaves
    by_cases hlast : count.val % 8 = 0
    · rw [if_pos hlast] at hleaves
      exact hbroken _ (by omega) hleaves
    · rw [if_neg hlast] at hleaves
      by_cases hfixed : p = .fixed
      · obtain ⟨fault, hfault, hrun⟩ : Rejects (append8 (bitByte true) (count.val % 8) .right)
            ⟨pack l ++ List.replicate (count.val / 8) (bitByte true),
              l.length + 8 * (count.val / 8), p⟩ := append8_rejects (.inl hfixed) _ _
        rw [hrun] at hleaves
        cases fault <;> first
          | exact hbroken _ (by omega) hleaves
          | exact hleaves
      · have hfits : l.length % 8 + count.val % 8 < 8 := by
          by_contra hlarge
          exact hreaches ⟨hfixed, by omega⟩
        have hback := insertBytes_backValid (ofBits_backValid l p) (bitByte true) (count.val / 8)
        have hmod : (l.length + 8 * (count.val / 8)) % 8 = l.length % 8 := by omega
        rw [hinserted] at hback
        have hpush := pushBits_fits (v := ⟨pack l ++ List.replicate (count.val / 8) (bitByte true),
          l.length + 8 * (count.val / 8), p⟩) (by rwa [hmod])
          (show (l.length + 8 * (count.val / 8)) % 8 + count.val % 8 ≤ 8 by omega)
          (alignLeft (bitByte true) (count.val % 8) .right)
        rw [modifyLast_ones _ hbytes] at hpush
        rw [append8_run (by omega) (by omega) hfixed hback] at hleaves
        refine hbroken ((l.length + 8 * (count.val / 8) + count.val % 8) % uint32Size) ?_ ?_
        · unfold uint32Size
          omega
        · rw [← hpush]
          exact hleaves
  · intro hones
    exact appendBits_leavesIntact hv ⟨hones, .inr hbound⟩

theorem assign_leavesIntact {rhs : BinaryVector} (hrhs : rhs.Intact) :
    LeavesIntact (assign rhs) v := by
  by_cases hrejects : v.sizeProperty = .fixed ∧ rhs.usedBits ≠ v.usedBits
  · exact (assign_rejects hrejects.1 hrejects.2).leavesIntact hv
  · exact leavesIntact_ok (assign_run (by tauto)) (hrhs.with_sizeProperty _)

theorem prependBits_leavesIntact {bitsCount : Fin uint32Size} {fillPattern : Byte}
    (hsafe : (Mutator.prependBits bitsCount fillPattern).Safe v) :
    LeavesIntact (prependBits bitsCount fillPattern) v := by
  obtain ⟨hbound, hsum⟩ := hsafe
  obtain ⟨tmp, htmp, -, hrun, hbits⟩ := prependBits_eq hv.stored hbound fillPattern
  by_cases hfits : bitsCount.val + v.usedBits < uint32Size
  · obtain ⟨l, hl⟩ := hbits hfits
    have hintact : tmp.Intact := by
      have hlength : (l ++ v.bits).length = tmp.usedBits := by rw [hl, ofBits_usedBits]
      rw [hl]
      apply ofBits_intact
      rw [hlength, htmp, Nat.mod_eq_of_lt hfits]
      exact hfits
    have hassign := assign_leavesIntact hv hintact
    rwa [LeavesIntact, ← hrun] at hassign
  · have hfixed : v.sizeProperty = .fixed := hsum.resolve_right hfits
    have hused := hv.usedBits_lt
    have hcount := bitsCount.isLt
    have hchanges : tmp.usedBits ≠ v.usedBits := by
      rw [htmp]
      unfold uint32Size at *
      omega
    have hassign := assign_rejects hfixed hchanges
    obtain ⟨fault, hfault, hthrows⟩ := hassign
    exact Rejects.leavesIntact ⟨fault, hfault, hrun.trans hthrows⟩ hv

theorem truncateLeadingZeroes_leavesIntact (count : Nat) :
    LeavesIntact (truncateLeadingZeroes count) v := by
  by_cases hcount : count ≤ v.leadingZeroesCount
  · have htmp : (ofBits (v.bits.drop count) .notFixed).Intact := by
      apply ofBits_intact
      rw [List.length_drop, hv.stored.exactBytes.bits_length]
      exact lt_of_le_of_lt (Nat.sub_le _ _) hv.usedBits_lt
    have hassign := assign_leavesIntact hv htmp
    rwa [LeavesIntact, ← truncateLeadingZeroes_run hv.stored hcount] at hassign
  · exact (truncateLeadingZeroes_rejects (by omega)).leavesIntact hv

theorem setInteger_leavesIntact (width : UIntWidth) (value : BitVec width.bits)
    (extension : Bool) : LeavesIntact (setInteger width value extension) v := by
  by_cases hfixed : v.sizeProperty = .fixed
  · by_cases hnone : v.usedBits = 0
    · exact (setInteger_rejects hv.stored.exactBytes hfixed hnone width value
        extension).leavesIntact hv
    · refine leavesIntact_ok (setInteger_stored hfixed (by omega) hv.usedBits_lt width value
        extension) (ofBits_intact ?_ _)
      rw [storedBits_length]
      exact hv.usedBits_lt
  · have hwidth := width.bits_le
    refine leavesIntact_ok (setInteger_unfixed hfixed width value extension) (ofBits_intact ?_ _)
    rw [storedBits_length]
    unfold uint32Size
    omega

theorem setSlice_leavesIntact {startOffset : Nat} {value : BinaryVector} (hvalue : value.Intact)
    (hsafe : (Mutator.setSlice startOffset value).Safe v) (byte : Byte) :
    LeavesIntact (setSlice [byte] startOffset value) v := by
  have hexact := hvalue.stored.exactBytes
  by_cases hrejects : value.usedBits = 0 ∨ v.usedBits ≤ startOffset ∨
      v.usedBits < (startOffset + value.usedBits) % uint32Size
  · exact (setSlice_rejects hv.stored hexact hrejects).leavesIntact hv
  · have hbound := hsafe.resolve_left hrejects
    push Not at hrejects
    rw [Nat.mod_eq_of_lt hbound] at hrejects
    obtain ⟨l, p, hlength, rfl⟩ := hv.exists_ofBits
    rw [ofBits_usedBits] at hrejects
    refine leavesIntact_ok (setSlice_ofBits hexact (Nat.pos_of_ne_zero hrejects.1) hrejects.2.2
      hlength (.inl (List.cons_ne_nil _ _))) (ofBits_intact ?_ p)
    rwa [splice_length (by rw [hexact.bits_length]; exact hrejects.2.2)]

theorem setSliceT_leavesIntact (range : IndexedRange) (width : UIntWidth)
    (value : BitVec width.bits) (byte : Byte) :
    LeavesIntact (setSliceT [byte] range width value) v := by
  by_cases haccepted : RangeAccepted v range width value
  · obtain ⟨w, hw, hcount, hrun⟩ := setSliceT_eq [byte] hv.stored haccepted
    have hordered := haccepted.ordered
    have hinside := haccepted.inside
    obtain ⟨l, p, hlength, rfl⟩ := hv.exists_ofBits
    rw [ofBits_usedBits] at hinside
    rw [setSlice_ofBits hw (by omega) (by omega) hlength (.inl (List.cons_ne_nil _ _))] at hrun
    refine leavesIntact_ok hrun (ofBits_intact ?_ p)
    rwa [splice_length (by rw [hw.bits_length]; omega)]
  · exact (setSliceT_rejects hv.stored haccepted).leavesIntact hv

theorem updateBit_leavesIntact (bitOffset : Nat) {update : Byte → Byte → Byte}
    {value : Byte → Bool}
    (hupdate : ∀ byte : Byte, byteBits (update byte (bitMask8 (bitOffset % 8))) =
      splice (byteBits byte) (bitOffset % 8) [value byte]) :
    LeavesIntact (updateBit bitOffset update) v := by
  by_cases hin : bitOffset < v.usedBits
  · obtain ⟨l, p, hlength, rfl⟩ := hv.exists_ofBits
    rw [ofBits_usedBits] at hin
    obtain ⟨bit, hrun⟩ := updateBit_ofBits (p := p) hin hupdate
    refine leavesIntact_ok hrun (ofBits_intact ?_ p)
    rwa [splice_length (by rw [List.length_singleton]; omega)]
  · exact (updateBit_rejects (by omega) update).leavesIntact hv

theorem setBit_leavesIntact (bitOffset : Nat) : LeavesIntact (setBit bitOffset) v :=
  updateBit_leavesIntact hv bitOffset (byteBits_setBit (Nat.mod_lt _ (by decide)))

theorem clearBit_leavesIntact (bitOffset : Nat) : LeavesIntact (clearBit bitOffset) v :=
  updateBit_leavesIntact hv bitOffset (byteBits_clearBit (Nat.mod_lt _ (by decide)))

theorem toggleBit_leavesIntact (bitOffset : Nat) : LeavesIntact (toggleBit bitOffset) v :=
  updateBit_leavesIntact hv bitOffset (byteBits_toggleBit (Nat.mod_lt _ (by decide)))

theorem toggleBits_leavesIntact : LeavesIntact toggleBits v := by
  refine leavesIntact_ok (toggleBits_run hv.stored.exactBytes) (ofBits_intact ?_ _)
  rw [List.length_map, hv.stored.exactBytes.bits_length]
  exact hv.usedBits_lt

theorem combine_leavesIntact {rhs : BinaryVector} (hrhs : rhs.Intact)
    {combineBytes : Byte → Byte → Byte} {combineBits : Bool → Bool → Bool}
    (hbytes : ∀ left right : Byte, byteBits (combineBytes left right) =
      List.zipWith combineBits (byteBits left) (byteBits right)) :
    LeavesIntact (combine combineBytes rhs) v := by
  by_cases hsize : rhs.usedBits = v.usedBits
  · refine leavesIntact_ok (combine_run hv.stored.exactBytes hrhs.stored.exactBytes hsize hbytes)
      (ofBits_intact ?_ _)
    rw [List.length_zipWith, hv.stored.exactBytes.bits_length, hrhs.stored.exactBytes.bits_length,
      hsize, Nat.min_self]
    exact hv.usedBits_lt
  · exact (combine_rejects hsize combineBytes).leavesIntact hv

theorem andAssign_leavesIntact {rhs : BinaryVector} (hrhs : rhs.Intact) :
    LeavesIntact (andAssign rhs) v :=
  combine_leavesIntact hv hrhs byteBits_and

theorem orAssign_leavesIntact {rhs : BinaryVector} (hrhs : rhs.Intact) :
    LeavesIntact (orAssign rhs) v :=
  combine_leavesIntact hv hrhs byteBits_or

theorem xorAssign_leavesIntact {rhs : BinaryVector} (hrhs : rhs.Intact) :
    LeavesIntact (xorAssign rhs) v :=
  combine_leavesIntact hv hrhs byteBits_xor

/-- A safe mutator keeps the representation, also when it throws and whatever byte it finds behind a source. -/
theorem Mutator.leavesIntact (mutator : Mutator)
    (hoperand : ∀ rhs, mutator.operand = some rhs → rhs.Intact) (hsafe : mutator.Safe v)
    (byte : Byte) : LeavesIntact (mutator.call [byte]) v := by
  cases mutator with
  | append rhs => exact append_leavesIntact hv (hoperand rhs rfl) hsafe
  | appendUInt width value numberOfBits alignment => exact appendUInt_leavesIntact hv hsafe
  | appendChunks numberOfBits alignment chunks => exact appendChunks_leavesIntact hv hsafe
  | appendBits bitIsOne count => exact appendBits_leavesIntact hv hsafe
  | prependBits bitsCount fillPattern => exact prependBits_leavesIntact hv hsafe
  | truncateLeadingZeroes count => exact truncateLeadingZeroes_leavesIntact hv count
  | setUnsigned width value => exact setInteger_leavesIntact hv width value false
  | setSigned width value => exact setInteger_leavesIntact hv width value value.msb
  | assign rhs => exact assign_leavesIntact hv (hoperand rhs rfl)
  | setSlice startOffset value => exact setSlice_leavesIntact hv (hoperand value rfl) hsafe byte
  | setSliceT range width value => exact setSliceT_leavesIntact hv range width value byte
  | setBit bitOffset => exact setBit_leavesIntact hv bitOffset
  | clearBit bitOffset => exact clearBit_leavesIntact hv bitOffset
  | toggleBit bitOffset => exact toggleBit_leavesIntact hv bitOffset
  | toggleBits => exact toggleBits_leavesIntact hv
  | andAssign rhs => exact andAssign_leavesIntact hv (hoperand rhs rfl)
  | orAssign rhs => exact orAssign_leavesIntact hv (hoperand rhs rfl)
  | xorAssign rhs => exact xorAssign_leavesIntact hv (hoperand rhs rfl)

end

/-! ### Parts of vectors -/

/-- The ranges for which `slice` does not read past the end of its source. -/
def SafeSlice (source : BinaryVector) (firstBitOffset bitsCount : Nat) : Prop :=
  (bitsCount = 0 ∨ source.usedBits ≤ firstBitOffset ∨
    source.usedBits < (firstBitOffset + bitsCount) % uint32Size) ∨
      firstBitOffset + bitsCount < uint32Size

theorem slice_cases {source : BinaryVector} {firstBitOffset bitsCount : Nat}
    (hsafe : SafeSlice source firstBitOffset bitsCount) :
    (∃ fault, fault ≠ .undefinedBehaviour ∧
      source.slice firstBitOffset bitsCount = .error fault) ∨
      bitsCount = 0 ∨ firstBitOffset + bitsCount ≤ source.usedBits := by
  by_cases hnone : bitsCount = 0
  · exact .inr (.inl hnone)
  · by_cases hfirst : firstBitOffset < source.usedBits
    · by_cases hlast : (firstBitOffset + bitsCount) % uint32Size ≤ source.usedBits
      · have hbound : firstBitOffset + bitsCount < uint32Size := by
          unfold SafeSlice at hsafe
          omega
        rw [Nat.mod_eq_of_lt hbound] at hlast
        exact .inr (.inr hlast)
      · refine .inl ⟨_, ?_, by rw [slice, if_neg hnone, if_neg (not_not.mpr hfirst), if_pos hlast]⟩
        exact Fault.noConfusion
    · refine .inl ⟨_, ?_, by rw [slice, if_neg hnone, if_pos hfirst]⟩
      exact Fault.noConfusion

theorem slice_makesIntact {source : BinaryVector} (hsource : source.Intact)
    {firstBitOffset bitsCount : Nat} (hsafe : SafeSlice source firstBitOffset bitsCount) :
    MakesIntact (source.slice firstBitOffset bitsCount) := by
  rcases slice_cases hsafe with ⟨fault, hfault, hrun⟩ | rfl | hrange
  · rw [hrun]
    exact hfault
  · rw [slice, if_pos rfl, empty_eq_ofBits]
    exact ofBits_intact (by decide) _
  · rw [slice_eq hsource.stored.exactBytes hsource.usedBits_lt hrange]
    refine ofBits_intact (lt_of_le_of_lt ?_ hsource.usedBits_lt) _
    rw [List.length_take]
    omega

theorem reverseSlice_makesIntact {source : BinaryVector} (hsource : source.Intact)
    {firstBitOffset bitsCount : Nat} (hsafe : SafeSlice source firstBitOffset bitsCount)
    (hbound : source.usedBits < firstBitOffset + bitsCount ∨ bitsCount + 7 < uint32Size) :
    MakesIntact (source.reverseSlice firstBitOffset bitsCount) := by
  by_cases hnone : bitsCount = 0
  · have hempty : empty.Intact := ofBits_intact (l := []) (by decide) .notFixed
    rw [reverseSlice, if_pos hnone]
    exact hempty
  · rcases slice_cases hsafe with ⟨fault, hfault, hrun⟩ | hzero | hrange
    · rw [reverseSlice, if_neg hnone, hrun]
      exact hfault
    · exact absurd hzero hnone
    · rw [reverseSlice_eq hsource.stored.exactBytes hsource.usedBits_lt hrange (by omega)]
      refine ofBits_intact (lt_of_le_of_lt ?_ hsource.usedBits_lt) _
      rw [List.length_reverse, List.length_take]
      omega

/-! ### Vectors from text -/

/-- The number of bits a chunk of digits stands for, before it is narrowed to 32 bits. -/
def encodedLength (base : NumberBase) (bitsChunk : Text) (dontCare : DontCare) : Nat :=
  match base with
  | .binary =>
    (binaryTextBits dontCare (removeBasePrefix 'b' 'B' (bitsChunk.dropWhile isBlank))).length
  | .hexadecimal =>
    (hexTextBits dontCare '\x00'
      (removeBasePrefix 'x' 'X' (bitsChunk.dropWhile isBlank))).length
  | _ => 0

theorem createFromBinaryString_makesIntact {text : Text} {p : SizeProperty} {dontCare : DontCare}
    (hlength : encodedLength .binary text dontCare < uint32Size) :
    MakesIntact (createFromBinaryString text p dontCare) := by
  cases hcreate : createFromBinaryString text p dontCare with
  | error fault =>
    rintro rfl
    exact createFromBinaryString_defined _ _ _ hcreate
  | ok v =>
    obtain ⟨l, hl, rfl⟩ := createFromBinaryString_ok hcreate
    rw [encodedLength, ← hl] at hlength
    rw [Nat.mod_eq_of_lt hlength]
    exact ofBits_intact hlength p

theorem createFromHexString_makesIntact {text : Text} {p : SizeProperty} {dontCare : DontCare}
    (hlength : encodedLength .hexadecimal text dontCare < uint32Size) :
    MakesIntact (createFromHexString text p dontCare) := by
  cases hcreate : createFromHexString text p dontCare with
  | error fault =>
    rintro rfl
    exact createFromHexString_defined _ _ _ hcreate
  | ok v =>
    obtain ⟨l, hl, rfl⟩ := createFromHexString_ok hcreate
    rw [encodedLength, ← hl] at hlength
    rw [Nat.mod_eq_of_lt hlength]
    exact ofBits_intact hlength p

theorem createFromDecString_makesIntact (text : Text) (p : SizeProperty) :
    MakesIntact (createFromDecString text p) := by
  rcases createFromDecString_cases text p with ⟨fault, hfault, hcreate⟩ | ⟨l, q, hlength, hcreate⟩
  · rw [hcreate]
    exact hfault
  · rw [hcreate]
    exact ofBits_intact (by unfold uint32Size; omega) q

theorem chunkVector_makesIntact {base : NumberBase} {bitsChunk : Text} {dontCare : DontCare}
    (hlength : encodedLength base bitsChunk dontCare < uint32Size) :
    MakesIntact (chunkVector base bitsChunk dontCare) := by
  cases base with
  | binary => exact createFromBinaryString_makesIntact hlength
  | hexadecimal => exact createFromHexString_makesIntact hlength
  | decimal => exact createFromDecString_makesIntact bitsChunk .notFixed
  | octal => exact Fault.noConfusion
  | undefined => exact Fault.noConfusion

/-- A chunk whose digits fit in a vector and, when its size is given, are at least one. -/
def SafeChunk (info : EncodingInfo) (bitsChunk : Text) (dontCare : DontCare) : Prop :=
  encodedLength info.base bitsChunk dontCare < uint32Size ∧
    (info.bitsCount ≠ 0 → ∀ vector, chunkVector info.base bitsChunk dontCare = .ok vector →
      vector.usedBits ≠ 0)

theorem chunkValue_intact {info : EncodingInfo} {bitsChunk : Text} {dontCare : DontCare}
    (hsafe : SafeChunk info bitsChunk dontCare) :
    match chunkValue info bitsChunk dontCare with
    | .ok chunk => chunk.vector.Intact
    | .error fault => fault ≠ .undefinedBehaviour := by
  have hvector := chunkVector_makesIntact hsafe.1
  unfold chunkValue
  by_cases hempty : bitsChunk = []
  · rw [if_pos hempty]
    exact Fault.noConfusion
  · rw [if_neg hempty]
    cases hchunk : chunkVector info.base bitsChunk dontCare with
    | error fault =>
      rw [hchunk] at hvector
      exact hvector
    | ok vector =>
      rw [hchunk] at hvector
      simp only
      by_cases hsize : info.bitsCount ≠ 0 ∧ info.bitsCount ≠ vector.usedBits
      · rw [if_pos hsize]
        by_cases htruncate : info.bitsCount < vector.usedBits
        · have hrange : vector.usedBits - info.bitsCount + info.bitsCount ≤ vector.usedBits := by
            omega
          have hslice := slice_eq hvector.stored.exactBytes hvector.usedBits_lt hrange
          rw [if_pos htruncate, hslice]
          refine ofBits_intact (lt_of_le_of_lt ?_ hvector.usedBits_lt) _
          rw [List.length_take, List.length_drop, hvector.stored.exactBytes.bits_length]
          omega
        · have hfilled := hsafe.2 hsize.1 vector hchunk
          rw [if_neg htruncate, isNegative_eq hvector.stored.exactBytes (by omega)]
          exact hvector
      · rw [if_neg hsize]
        exact hvector

def ChunkValue.bitsCount (chunk : ChunkValue) : Nat :=
  chunk.extension.elim 0 Prod.snd + chunk.vector.usedBits

/-- What may be appended for a chunk to a result that has the given number of bits. -/
def ChunkValue.SafeAt (chunk : ChunkValue) (offset : Nat) : Prop :=
  offset + chunk.bitsCount < uint32Size ∧
    ∀ appendOnes count, chunk.extension = some (appendOnes, count) →
      offset % 8 = 0 ∨ appendOnes = false ∨ count < 8 ∨ 8 ≤ offset % 8 + count % 8

/-- The chunks of a text can be appended one after the other to a result of `offset` bits. -/
def SafeText (dontCare : DontCare) (firstChunk : Bool) (text : Text) (offset : Nat) : Prop :=
  if text = [] then True
  else
    match _hnext : getNextChunk firstChunk text with
    | .error _ => True
    | .ok (info, bitsChunk, rest) =>
      SafeChunk info bitsChunk dontCare ∧
        match _hvalue : chunkValue info bitsChunk dontCare with
        | .error _ => True
        | .ok chunk =>
          chunk.SafeAt offset ∧ SafeText dontCare false rest (offset + chunk.bitsCount)
termination_by text.length
decreasing_by exact chunkValue_length_lt _hnext _hvalue

theorem build_toggleBits {v : BinaryVector} (hv : v.Intact) :
    ∃ v', build v toggleBits = .ok v' ∧ v'.Intact ∧ v'.usedBits = v.usedBits := by
  have hlength := hv.stored.exactBytes.bits_length
  refine ⟨_, by rw [build, toggleBits_run hv.stored.exactBytes], ofBits_intact ?_ _, ?_⟩
  · rw [List.length_map, hlength]
    exact hv.usedBits_lt
  · rw [ofBits_usedBits, List.length_map, hlength]

theorem appendChunkValue_ofBits {chunk : ChunkValue} (hvector : chunk.vector.Intact)
    {l : List Bool} (hsafe : chunk.SafeAt l.length) :
    ∃ added, added.length = chunk.bitsCount ∧
      (appendChunkValue chunk).run (ofBits l .notFixed) =
        .ok () (ofBits (l ++ added) .notFixed) := by
  obtain ⟨hbound, hones⟩ := hsafe
  obtain ⟨vector, hread, hintact, hused⟩ : ∃ vector : BinaryVector,
      (if chunk.inverted then build chunk.vector toggleBits else .ok chunk.vector) = .ok vector ∧
        vector.Intact ∧ vector.usedBits = chunk.vector.usedBits := by
    cases chunk.inverted with
    | true => exact build_toggleBits hvector
    | false => exact ⟨chunk.vector, rfl, hvector, rfl⟩
  have hbits := hintact.stored.exactBytes.bits_length
  -- the chunk itself is appended after its extension, if it has one
  have happend : ∀ {front : List Bool}, front.length + vector.usedBits < uint32Size →
      (append vector).run (ofBits front .notFixed) =
        .ok () (ofBits (front ++ vector.bits) .notFixed) :=
    fun hfits => append_ofBits hintact.stored.exactBytes (by decide) hfits
  cases hextension : chunk.extension with
  | none =>
    have hcount : chunk.bitsCount = vector.usedBits := by
      rw [ChunkValue.bitsCount, hextension, hused, Option.elim_none, Nat.zero_add]
    rw [hcount] at hbound
    refine ⟨vector.bits, by rw [hbits, hcount], ?_⟩
    simp only [appendChunkValue, hextension, EStateM.run_bind, hread, orThrow_ok, happend hbound]
  | some extension =>
    obtain ⟨appendOnes, count⟩ := extension
    have hcount : chunk.bitsCount = count + vector.usedBits := by
      rw [ChunkValue.bitsCount, hextension, hused, Option.elim_some]
    rw [hcount] at hbound
    obtain ⟨added, hadded, hrun⟩ := appendBits_safe_ofBits (p := .notFixed)
      (hones appendOnes count hextension) (by decide) (by omega)
    have hfits : (l ++ added).length + vector.usedBits < uint32Size := by
      rw [List.length_append, hadded]
      omega
    refine ⟨added ++ vector.bits, by rw [List.length_append, hadded, hbits, hcount], ?_⟩
    simp only [appendChunkValue, hextension, EStateM.run_bind, hrun, hread, orThrow_ok,
      happend hfits, List.append_assoc]

/-- The loop over the chunks of a text, by induction on what is left of it. -/
theorem appendChunkValues_makesIntact {dontCare : DontCare} {firstChunk : Bool} {text : Text}
    {l : List Bool} (htrimmed : trimLeft text = text) (hlength : l.length < uint32Size)
    (hsafe : SafeText dontCare firstChunk text l.length) :
    MakesIntact (appendChunkValues dontCare firstChunk text (ofBits l .notFixed)) := by
  induction hcount : text.length using Nat.strong_induction_on generalizing firstChunk text l with
  | _ count ih =>
    unfold SafeText at hsafe
    unfold appendChunkValues
    by_cases hempty : text = []
    · rw [if_pos hempty]
      exact ofBits_intact hlength _
    · rw [if_neg hempty] at hsafe ⊢
      cases hnext : getNextChunk firstChunk text with
      | error fault =>
        rintro rfl
        exact getNextChunk_defined firstChunk htrimmed hempty hnext
      | ok step =>
        obtain ⟨info, bitsChunk, rest⟩ := step
        rw [hnext] at hsafe
        obtain ⟨hchunk, hrest⟩ := hsafe
        have hintact := chunkValue_intact hchunk
        simp only
        cases hvalue : chunkValue info bitsChunk dontCare with
        | error fault =>
          rw [hvalue] at hintact
          exact hintact
        | ok chunk =>
          rw [hvalue] at hintact hrest
          obtain ⟨hat, hrest⟩ := hrest
          obtain ⟨added, hadded, hrun⟩ := appendChunkValue_ofBits hintact hat
          have hlonger : (l ++ added).length = l.length + chunk.bitsCount := by
            rw [List.length_append, hadded]
          simp only [build, hrun]
          have hbase : info.base ≠ .undefined := by
            intro hundefined
            simp only [chunkValue, chunkVector, hundefined] at hvalue
            split at hvalue <;> simp at hvalue
          refine ih _ (hcount ▸ chunkValue_length_lt hnext hvalue)
            (getNextChunk_trimmed hnext hbase) ?_ ?_ rfl
          · rw [hlonger]
            exact hat.1
          · rwa [hlonger]

theorem createFromString_makesIntact {text : Text} {p : SizeProperty} {dontCare : DontCare}
    (hsafe : SafeText dontCare true ((trimLeft text).dropWhile isBlank) 0) :
    MakesIntact (createFromString text p dontCare) := by
  have hempty : empty.Intact := ofBits_intact (l := []) (by decide) .notFixed
  simp only [createFromString]
  by_cases hnone : trimLeft text = []
  · rw [if_pos hnone]
    exact hempty
  · have htrimmed : trimLeft ((trimLeft text).dropWhile isBlank) =
        (trimLeft text).dropWhile isBlank := by
      have hhead := List.head?_dropWhile_not isBlank (trimLeft text)
      cases hrest : (trimLeft text).dropWhile isBlank with
      | nil => rfl
      | cons c rest =>
        rw [hrest] at hhead
        apply List.dropWhile_cons_of_neg
        intro hblank
        rcases of_decide_eq_true hblank with rfl | rfl <;> simp [isBlank] at hhead
    have hloop := appendChunkValues_makesIntact (l := []) htrimmed (by decide) hsafe
    rw [if_neg hnone, empty_eq_ofBits]
    split
    · rename_i fault hread
      rw [hread] at hloop
      exact hloop
    · rename_i result hread
      rw [hread] at hloop
      exact hloop.with_sizeProperty p

/-! ### Sequences of calls -/

inductive Factory
  | empty
  | ofFillPattern (bitsCount : Fin uint32Size) (fillPattern : BitVec 8) (p : SizeProperty)
  | ofData (data : List (BitVec 8)) (bitsCount : Fin uint32Size) (p : SizeProperty)
  | createFromRightAlignedBuffer (buffer : List (BitVec 8)) (bitsCount : Fin uint32Size)
      (p : SizeProperty)
  | createFromMovedRightAlignedBuffer (buffer : List (BitVec 8)) (bitsCount : Fin uint32Size)
      (p : SizeProperty)
  | createFromBinaryString (text : Text) (p : SizeProperty) (dontCare : DontCare)
  | createFromHexString (text : Text) (p : SizeProperty) (dontCare : DontCare)
  | createFromDecString (text : Text) (p : SizeProperty)
  | createFromString (text : Text) (p : SizeProperty) (dontCare : DontCare)

namespace Factory

def call : Factory → Except Fault BinaryVector
  | empty => .ok BinaryVector.empty
  | ofFillPattern bitsCount fillPattern p => BinaryVector.ofFillPattern bitsCount fillPattern p
  | ofData data bitsCount p => BinaryVector.ofData data bitsCount p
  | createFromRightAlignedBuffer buffer bitsCount p =>
    BinaryVector.createFromRightAlignedBuffer buffer bitsCount p
  | createFromMovedRightAlignedBuffer buffer bitsCount p =>
    BinaryVector.createFromMovedRightAlignedBuffer buffer bitsCount p
  | createFromBinaryString text p dontCare => BinaryVector.createFromBinaryString text p dontCare
  | createFromHexString text p dontCare => BinaryVector.createFromHexString text p dontCare
  | createFromDecString text p => BinaryVector.createFromDecString text p
  | createFromString text p dontCare => BinaryVector.createFromString text p dontCare

/-- The arguments from which a factory makes a vector in the intended representation. -/
def Safe : Factory → Prop
  | ofFillPattern bitsCount _ _ => bitsCount.val + 7 < uint32Size
  | ofData _ bitsCount _ => bitsCount.val + 7 < uint32Size
  | createFromRightAlignedBuffer buffer bitsCount _ =>
    buffer = [] ∨ bitsCount.val + 7 < uint32Size
  | createFromMovedRightAlignedBuffer buffer bitsCount _ =>
    buffer = [] ∨ bitsCount.val + 7 < uint32Size ∧
      (bitsCount.val % 8 = 0 → bytesFor bitsCount ≤ buffer.length →
        2 * bytesFor bitsCount ≤ buffer.length)
  | createFromBinaryString text _ dontCare => encodedLength .binary text dontCare < uint32Size
  | createFromHexString text _ dontCare => encodedLength .hexadecimal text dontCare < uint32Size
  | createFromString text _ dontCare =>
    SafeText dontCare true ((trimLeft text).dropWhile isBlank) 0
  | _ => True

end Factory

theorem shiftBufferLeft_refuses {buffer : List Byte} {bitsCount : Nat} (hpos : 0 < bitsCount)
    (hbuffer : buffer.length < bytesCountFromBitsCount bitsCount ∨ buffer = []) :
    ∃ fault, fault ≠ .undefinedBehaviour ∧ shiftBufferLeft buffer bitsCount = .error fault := by
  rw [shiftBufferLeft, if_neg hpos.ne']
  by_cases hshort : buffer.length ≥ bytesCountFromBitsCount bitsCount
  · have hempty : buffer = [] := hbuffer.resolve_left (by omega)
    simp only [if_neg (not_not.mpr hshort), if_pos hempty]
    exact ⟨_, Fault.noConfusion, rfl⟩
  · simp only [if_pos hshort]
    exact ⟨_, Fault.noConfusion, rfl⟩

theorem createFromRightAlignedBuffer_makesIntact {buffer : List Byte} {bitsCount : Fin uint32Size}
    {p : SizeProperty} (hsafe : buffer = [] ∨ bitsCount.val + 7 < uint32Size) :
    MakesIntact (createFromRightAlignedBuffer buffer bitsCount p) := by
  by_cases hnone : bitsCount.val = 0
  · rw [hnone, createFromRightAlignedBuffer_eq (by decide) (Nat.zero_le _)]
    refine ofBits_intact ?_ p
    rw [List.length_drop, unpack_length]
    unfold uint32Size
    omega
  · by_cases hrefused : buffer.length < bytesCountFromBitsCount bitsCount ∨ buffer = []
    · obtain ⟨fault, hfault, hshift⟩ := shiftBufferLeft_refuses (by omega) hrefused
      rw [createFromRightAlignedBuffer, hshift]
      exact hfault
    · push Not at hrefused
      have hbound := hsafe.resolve_left hrefused.2
      rw [bytesCountFromBitsCount_eq hbound] at hrefused
      rw [createFromRightAlignedBuffer_eq hbound hrefused.1]
      refine ofBits_intact (lt_of_le_of_lt ?_ bitsCount.isLt) p
      rw [List.length_drop, unpack_length]
      omega

/-- A buffer that is too short is refused before anything is moved in it. -/
theorem shiftBufferLeftWithin_refuses {buffer : List Byte} {bitsCount : Nat} (hpos : 0 < bitsCount)
    (hbuffer : buffer.length < bytesCountFromBitsCount bitsCount ∨ buffer = []) :
    shiftBufferLeftWithin buffer bitsCount = shiftBufferLeft buffer bitsCount := by
  rw [shiftBufferLeftWithin, shiftBufferLeft, if_neg hpos.ne', if_neg hpos.ne']
  by_cases hshort : buffer.length ≥ bytesCountFromBitsCount bitsCount
  · have hempty : buffer = [] := hbuffer.resolve_left (by omega)
    simp only [if_neg (not_not.mpr hshort), if_pos hempty]
  · simp only [if_pos hshort]

theorem createFromMovedRightAlignedBuffer_makesIntact {buffer : List Byte}
    {bitsCount : Fin uint32Size} {p : SizeProperty}
    (hsafe : (Factory.createFromMovedRightAlignedBuffer buffer bitsCount p).Safe) :
    MakesIntact (createFromMovedRightAlignedBuffer buffer bitsCount p) := by
  have hcopied : MakesIntact (createFromRightAlignedBuffer buffer bitsCount p) :=
    createFromRightAlignedBuffer_makesIntact (hsafe.imp_right And.left)
  by_cases hnone : bitsCount.val = 0
  · rw [hnone] at hcopied ⊢
    exact hcopied
  by_cases hrefused : buffer.length < bytesCountFromBitsCount bitsCount ∨ buffer = []
  · rw [createFromMovedRightAlignedBuffer, shiftBufferLeftWithin_refuses (by omega) hrefused]
    exact hcopied
  · push Not at hrefused
    obtain ⟨hbound, hapart⟩ := hsafe.resolve_left hrefused.2
    rw [bytesCountFromBitsCount_eq hbound] at hrefused
    rw [createFromMovedRightAlignedBuffer_eq hbound hrefused.1
      fun haligned => hapart haligned hrefused.1]
    exact hcopied

theorem Factory.makesIntact {factory : Factory} (hsafe : factory.Safe) :
    MakesIntact factory.call := by
  cases factory with
  | empty => exact ofBits_intact (l := []) (by decide) .notFixed
  | ofFillPattern bitsCount fillPattern p =>
    obtain ⟨l, hlength, hcreate⟩ := ofFillPattern_eq hsafe fillPattern p
    rw [call, hcreate]
    exact ofBits_intact (hlength ▸ bitsCount.isLt) p
  | ofData data bitsCount p =>
    rw [call, ofData_eq hsafe]
    refine ofBits_intact (lt_of_le_of_lt ?_ bitsCount.isLt) p
    rw [List.length_take]
    omega
  | createFromRightAlignedBuffer buffer bitsCount p =>
    exact createFromRightAlignedBuffer_makesIntact hsafe
  | createFromMovedRightAlignedBuffer buffer bitsCount p =>
    exact createFromMovedRightAlignedBuffer_makesIntact hsafe
  | createFromBinaryString text p dontCare => exact createFromBinaryString_makesIntact hsafe
  | createFromHexString text p dontCare => exact createFromHexString_makesIntact hsafe
  | createFromDecString text p => exact createFromDecString_makesIntact text p
  | createFromString text p dontCare => exact createFromString_makesIntact hsafe

/-- A public call that leaves a vector: the one it returns, or the one it is made on. -/
inductive Call
  | make (factory : Factory)
  | copy (source : BinaryVector)
  | copyWith (source : BinaryVector) (p : SizeProperty)
  | slice (source : BinaryVector) (firstBitOffset bitsCount : Nat)
  | reverseSlice (source : BinaryVector) (firstBitOffset bitsCount : Nat)
  | movedFrom (source : BinaryVector)
  | clear (target : BinaryVector)
  | fixSize (target : BinaryVector) (fix : Bool)
  | mutate (target : BinaryVector) (mutator : Mutator)

namespace Call

def operands : Call → List BinaryVector
  | make _ => []
  | copy source | copyWith source _ | slice source _ _ | reverseSlice source _ _ |
    movedFrom source => [source]
  | clear target | fixSize target _ => [target]
  | mutate target mutator => target :: mutator.operand.toList

/-- The vector a call leaves when it returns and, for its target, when it throws. -/
def Leaves : Call → BinaryVector → Prop
  | make factory, v => factory.call = .ok v
  | copy source, v => v = source.copy
  | copyWith source p, v => v = { source.copy with sizeProperty := p }
  | slice source firstBitOffset bitsCount, v => source.slice firstBitOffset bitsCount = .ok v
  | reverseSlice source firstBitOffset bitsCount, v =>
    source.reverseSlice firstBitOffset bitsCount = .ok v
  | movedFrom _, v => v = BinaryVector.movedFrom
  | clear target, v => BinaryVector.clear.run target = .ok () v
  | fixSize target fix, v => (BinaryVector.fixSize fix).run target = .ok () v
  | mutate target mutator, v =>
    ∃ byte, (mutator.call [byte]).run target = .ok () v ∨
      ∃ fault, (mutator.call [byte]).run target = .error fault v

/-- The calls that do not leave the intended representation. -/
def Safe : Call → Prop
  | make factory => factory.Safe
  | slice source firstBitOffset bitsCount => SafeSlice source firstBitOffset bitsCount
  | reverseSlice source firstBitOffset bitsCount =>
    SafeSlice source firstBitOffset bitsCount ∧
      (source.usedBits < firstBitOffset + bitsCount ∨ bitsCount + 7 < uint32Size)
  | mutate target mutator => mutator.Safe target
  | _ => True

end Call

/-- The vectors that a sequence of allowed calls can build. -/
inductive Built (Allowed : Call → Prop) : BinaryVector → Prop
  | step {call : Call} {v : BinaryVector} (hallowed : Allowed call)
      (hoperands : ∀ operand ∈ call.operands, Built Allowed operand) (hleaves : call.Leaves v) :
      Built Allowed v

theorem Call.leaves_intact {call : Call} {v : BinaryVector} (hsafe : call.Safe)
    (hoperands : ∀ operand ∈ call.operands, operand.Intact) (hleaves : call.Leaves v) :
    v.Intact := by
  cases call with
  | make factory =>
    have hmakes := Factory.makesIntact hsafe
    rw [show factory.call = .ok v from hleaves] at hmakes
    exact hmakes
  | copy source =>
    obtain rfl : v = source.copy := hleaves
    exact (hoperands source (by simp [operands])).with_sizeProperty _
  | copyWith source p =>
    obtain rfl : v = { source.copy with sizeProperty := p } := hleaves
    exact (hoperands source (by simp [operands])).with_sizeProperty _
  | slice source firstBitOffset bitsCount =>
    have hmakes := slice_makesIntact (hoperands source (by simp [operands])) hsafe
    rw [show source.slice firstBitOffset bitsCount = .ok v from hleaves] at hmakes
    exact hmakes
  | reverseSlice source firstBitOffset bitsCount =>
    have hmakes := reverseSlice_makesIntact (hoperands source (by simp [operands])) hsafe.1 hsafe.2
    rw [show source.reverseSlice firstBitOffset bitsCount = .ok v from hleaves] at hmakes
    exact hmakes
  | movedFrom source =>
    obtain rfl : v = BinaryVector.movedFrom := hleaves
    exact ofBits_intact (l := []) (by decide) .notFixed
  | clear target =>
    obtain rfl : ofBits [] target.sizeProperty = v := by
      simpa [Leaves, clear_run] using hleaves
    exact ofBits_intact (by decide) _
  | fixSize target fix =>
    have hrun : BinaryVector.fixSize fix target =
        .ok () { target with sizeProperty := if fix then .fixed else .notFixed } := rfl
    obtain rfl := (EStateM.Result.ok.inj (hrun.symm.trans hleaves)).2
    exact (hoperands target (by simp [operands])).with_sizeProperty _
  | mutate target mutator =>
    have htarget : target.Intact := hoperands target (by simp [operands])
    obtain ⟨byte, hleaves⟩ := hleaves
    have hkeeps := mutator.leavesIntact htarget
      (fun rhs hrhs => hoperands rhs (by simp [operands, hrhs])) hsafe byte
    rcases hleaves with hrun | ⟨fault, hrun⟩
    · rw [LeavesIntact, hrun] at hkeeps
      exact hkeeps
    · rw [LeavesIntact, hrun] at hkeeps
      cases fault <;> first | exact hkeeps | exact hkeeps.elim

theorem Built.intact {v : BinaryVector} (hbuilt : Built Call.Safe v) : v.Intact := by
  induction hbuilt with
  | step hsafe _ hleaves ih => exact Call.leaves_intact hsafe ih hleaves

/-- Every vector that safe calls build has the bytes its bits need, and zeros past them. -/
theorem built_wellFormed {v : BinaryVector} (hbuilt : Built Call.Safe v) : v.WellFormed :=
  hbuilt.intact.wellFormed

/-- A vector of one bit, before any other is appended. -/
private theorem built_oneBit {Allowed : Call → Prop}
    (hallowed : Allowed (.make (.ofFillPattern ⟨1, by decide⟩ 0xFF .notFixed))) :
    Built Allowed (ofBits [true] .notFixed) :=
  .step hallowed (by simp [Call.operands]) rfl

theorem built_wellFormed_appendBits : (ofBits [true, true, true] .notFixed).WellFormed := by
  have hstart : Built Call.Safe (ofBits [true] .notFixed) :=
    built_oneBit (show 1 + 7 < uint32Size by decide)
  have hsafe : Call.Safe (.mutate (ofBits [true] .notFixed) (.appendBits true ⟨2, by decide⟩)) :=
    ⟨.inr (.inr (.inl (by decide))), .inr (by decide)⟩
  exact built_wellFormed (.step hsafe (by simpa [Call.operands, Mutator.operand] using hstart)
    ⟨0, .inl rfl⟩)

/-- Eight ones after an incomplete byte leave seven of them past the end. -/
theorem not_built_wellFormed : ¬∀ v, Built (fun _ => True) v → v.WellFormed := by
  intro hall
  have hstart : Built (fun _ => True) (ofBits [true] .notFixed) := built_oneBit trivial
  have hleaves : Call.Leaves (.mutate (ofBits [true] .notFixed) (.appendBits true ⟨8, by decide⟩))
      ⟨[0x80, 0xFF], 9, .notFixed⟩ := ⟨0, .inl rfl⟩
  have hbuilt : Built (fun _ => True) ⟨[0x80, 0xFF], 9, .notFixed⟩ :=
    .step trivial (by simpa [Call.operands, Mutator.operand] using hstart) hleaves
  exact absurd (hall _ hbuilt) (by decide)

end BinaryVector

end Mast
