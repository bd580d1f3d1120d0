import Mast.BinaryVector.Compare
import Mast.BinaryVector.Invariant
import Mathlib.Data.List.GetD

/-!
# Repeated bits

`appendBits` inserts whole bytes after the last one, then aligns only the remaining bits. Whatever is appended, and to whatever vector, the bits that were there stay: `Extends` says so and composes. The buffer may hold anything behind the used bits of its last byte: ones are added to it, and whole bytes count it as used.
-/

namespace Mast

open BitPacking

namespace BinaryVector

/-- The vector has `count` more bits after those of the first one. -/
structure Extends (v v' : BinaryVector) (count : Nat) : Prop where
  usedBits : v'.usedBits = v.usedBits + count
  sizeProperty : v'.sizeProperty = v.sizeProperty
  exactBytes : v'.ExactBytes
  bits : v.bits <+: v'.bits

namespace Extends

variable {v v₁ v₂ : BinaryVector} {count count₁ count₂ : Nat}

theorem refl (hexact : v.ExactBytes) : Extends v v 0 :=
  ⟨rfl, rfl, hexact, List.prefix_rfl⟩

theorem trans (h : Extends v v₁ count₁) (h' : Extends v₁ v₂ count₂) :
    Extends v v₂ (count₁ + count₂) where
  usedBits := by rw [h'.usedBits, h.usedBits, Nat.add_assoc]
  sizeProperty := h'.sizeProperty.trans h.sizeProperty
  exactBytes := h'.exactBytes
  bits := h.bits.trans h'.bits

theorem getElem? (h : Extends v v₁ count) {i : Nat} {bit : Bool} (hbit : v.bits[i]? = some bit) :
    v₁.bits[i]? = some bit := by
  obtain ⟨added, hadded⟩ := h.bits
  obtain ⟨hlt, -⟩ := List.getElem?_eq_some_iff.mp hbit
  rw [← hadded, List.getElem?_append_left hlt, hbit]

end Extends

/-- The mutation returns with `count` more bits after those there were. -/
def ExtendsBy (mutation : Mutation Unit) (v : BinaryVector) (count : Nat) : Prop :=
  ∃ v', mutation.run v = .ok () v' ∧ Extends v v' count

theorem bits_prefix {v v' : BinaryVector} (hused : v.usedBits ≤ v'.usedBits)
    (hdata : (unpack v'.data).take v.usedBits = v.bits) : v.bits <+: v'.bits := by
  have hprefix : (unpack v'.data).take v.usedBits <+: (unpack v'.data).take v'.usedBits :=
    List.take_prefix_take_left hused
  rwa [hdata] at hprefix

theorem take_byteBits_or_shiftRight (byte value : Byte) {count : Nat} (hcount : count ≤ 8) :
    (byteBits (byte ||| value >>> count)).take count = (byteBits byte).take count := by
  rw [byteBits_or, byteBits_shiftRight _ hcount]
  apply List.ext_getElem?
  intro i
  by_cases hi : i < count
  · have hlt : i < 8 := by omega
    rw [List.getElem?_take_of_lt hi, List.getElem?_take_of_lt hi, List.getElem?_zipWith,
      List.getElem?_append_left (by simpa using hi)]
    simp [hi, hlt]
  · simp [hi]

theorem bytesFor_partial {count : Nat} (hunaligned : count % 8 ≠ 0) :
    8 * bytesFor count = count - count % 8 + 8 := by
  unfold bytesFor
  omega

theorem pushBits_extends {v : BinaryVector} (hexact : v.ExactBytes) (value : Byte)
    {numberOfBits : Nat} (hpos : 0 < numberOfBits) (hle : numberOfBits ≤ 8)
    (hbound : v.usedBits + numberOfBits < uint32Size) :
    Extends v (v.pushBits value numberOfBits) numberOfBits := by
  have hused : (v.pushBits value numberOfBits).usedBits = v.usedBits + numberOfBits := by
    rw [pushBits_usedBits, Nat.mod_eq_of_lt hbound]
  have hinside : v.usedBits ≤ 8 * v.data.length := by
    rw [hexact]
    exact le_bytesFor _
  suffices hdata : (v.pushBits value numberOfBits).data.length = bytesFor (v.usedBits + numberOfBits) ∧
      (unpack (v.pushBits value numberOfBits).data).take v.usedBits = v.bits by
    refine ⟨hused, rfl, ?_, bits_prefix (by omega) hdata.2⟩
    rw [ExactBytes, hused, hdata.1]
  rw [ExactBytes] at hexact
  by_cases haligned : v.usedBits % 8 = 0
  · rw [pushBits_aligned haligned]
    constructor
    · rw [List.length_append, hexact, List.length_singleton]
      unfold bytesFor
      omega
    · rw [unpack_append, List.take_append_of_le_length (by rwa [unpack_length]), bits]
  · have hunaligned := bytesFor_partial haligned
    obtain ⟨front, last, hlast⟩ := (List.eq_nil_or_concat' v.data).resolve_left (by
      intro hnone
      rw [hnone, List.length_nil] at hexact
      omega)
    rw [hlast, List.length_append, List.length_singleton] at hexact
    have hfront : v.usedBits = (unpack front).length + v.usedBits % 8 := by
      rw [unpack_length]
      omega
    have hkept : ∀ more : List Byte,
        (unpack (front ++ (last ||| value >>> (v.usedBits % 8)) :: more)).take v.usedBits = v.bits := by
      intro more
      have hfirst : ∀ (byte : Byte) (rest : List Byte), (unpack (front ++ byte :: rest)).take
          v.usedBits = unpack front ++ (byteBits byte).take (v.usedBits % 8) := by
        intro byte rest
        conv_lhs => rw [hfront, unpack_append, List.take_length_add_append, unpack_cons]
        rw [List.take_append_of_le_length (by simp; omega)]
      rw [bits, hlast, hfirst, hfirst, take_byteBits_or_shiftRight _ _ (by omega)]
    by_cases hfits : v.usedBits % 8 + numberOfBits ≤ 8
    · rw [pushBits_fits haligned hfits, hlast, List.modifyLast_concat]
      refine ⟨?_, hkept []⟩
      rw [List.length_append, List.length_singleton, hexact]
      unfold bytesFor at hunaligned ⊢
      omega
    · rw [pushBits_splits haligned (by omega), hlast, List.modifyLast_concat, List.append_assoc]
      refine ⟨?_, hkept _⟩
      simp only [List.length_append, List.length_singleton]
      unfold bytesFor at hexact ⊢
      omega

/-! ### The appending calls -/

variable {v : BinaryVector}

theorem append8_extendsBy (hexact : v.ExactBytes) (hfree : v.sizeProperty ≠ .fixed)
    {numberOfBits : Nat} (hpos : 0 < numberOfBits) (hle : numberOfBits ≤ 8)
    (hbound : v.usedBits + numberOfBits < uint32Size) (value : Byte) (alignment : BitsAlignment) :
    ExtendsBy (append8 value numberOfBits alignment) v numberOfBits :=
  ⟨_, append8_run hpos hle hfree hexact.backValid value alignment,
    pushBits_extends hexact _ hpos hle hbound⟩

theorem insertBytes_extends (hexact : v.ExactBytes) (value : Byte) (bytesCount : Nat)
    (hbound : v.usedBits + 8 * bytesCount < uint32Size) :
    Extends v (v.insertBytes value bytesCount) (8 * bytesCount) := by
  have hused : (v.insertBytes value bytesCount).usedBits = v.usedBits + 8 * bytesCount := by
    simp only [insertBytes, Nat.mod_eq_of_lt hbound]
  have hinside : v.usedBits ≤ 8 * v.data.length := by
    rw [hexact]
    exact le_bytesFor _
  refine ⟨hused, rfl, ?_, bits_prefix (by omega) ?_⟩
  · rw [ExactBytes] at hexact ⊢
    rw [hused, insertBytes, List.length_append, List.length_replicate, hexact]
    unfold bytesFor
    omega
  · rw [insertBytes, unpack_append, List.take_append_of_le_length (by rwa [unpack_length]), bits]

/-- `appendBits` inserts the whole bytes, then extends what it gets by the bits left over. -/
theorem appendBits_extends_insertBytes (hexact : v.ExactBytes) (hfree : v.sizeProperty ≠ .fixed)
    (bitIsOne : Bool) {count : Nat} (hbound : v.usedBits + count < uint32Size) :
    ∃ v', (appendBits bitIsOne count).run v = .ok () v' ∧
      Extends (v.insertBytes (bitByte bitIsOne) (count / 8)) v' (count % 8) := by
  have hinsert := insertBytes_extends hexact (bitByte bitIsOne) (count / 8) (by omega)
  rw [appendBits_run (by omega)]
  by_cases hrem : count % 8 = 0
  · rw [if_pos hrem, hrem]
    exact ⟨_, rfl, .refl hinsert.exactBytes⟩
  · rw [if_neg hrem]
    have hused := hinsert.usedBits
    exact append8_extendsBy hinsert.exactBytes hfree (by omega) (by omega) (by omega) _ _

theorem appendBits_extendsBy (hexact : v.ExactBytes) (hfree : v.sizeProperty ≠ .fixed)
    (bitIsOne : Bool) (count : Nat) (hbound : v.usedBits + count < uint32Size) :
    ExtendsBy (appendBits bitIsOne count) v count := by
  have hinsert := insertBytes_extends hexact (bitByte bitIsOne) (count / 8) (by omega)
  obtain ⟨v', hrun, hrest⟩ := appendBits_extends_insertBytes hexact hfree bitIsOne hbound
  have hsum : 8 * (count / 8) + count % 8 = count := Nat.div_add_mod count 8
  exact ⟨v', hrun, hsum ▸ hinsert.trans hrest⟩

/-- Behind an incomplete byte, the bits that follow the old ones are its unused ones. -/
theorem appendBits_counts_unused {l : List Bool} {p : SizeProperty} (hfree : p ≠ .fixed)
    (bitIsOne : Bool) {count : Nat} (hunaligned : l.length % 8 ≠ 0) (hwhole : 8 ≤ count)
    (hbound : l.length + count < uint32Size) :
    ∃ v', (appendBits bitIsOne count).run (ofBits l p) = .ok () v' ∧
      Extends (ofBits l p) v' count ∧ v'.bits[l.length]? = some false := by
  have hexact := (ofBits_wellFormed l p).exactBytes
  obtain ⟨v', hrun, hrest⟩ := appendBits_extends_insertBytes hexact hfree bitIsOne hbound
  have hinsert := insertBytes_extends hexact (bitByte bitIsOne) (count / 8)
    (by rw [ofBits_usedBits]; omega)
  have hsum : 8 * (count / 8) + count % 8 = count := Nat.div_add_mod count 8
  refine ⟨v', hrun, hsum ▸ hinsert.trans hrest, hrest.getElem? ?_⟩
  have hbytes := bytesFor_partial hunaligned
  have hused : l.length < (l.length + 8 * (count / 8)) % uint32Size := by
    rw [Nat.mod_eq_of_lt (by omega)]
    omega
  rw [bits, insertBytes, ofBits_usedBits, List.getElem?_take_of_lt hused, ofBits_data, unpack_append,
    List.getElem?_append_left (by rw [unpack_length, pack_length]; omega), unpack_pack,
    List.getElem?_append_right (Nat.le_refl _), Nat.sub_self, List.getElem?_replicate]
  exact if_pos (by omega)

theorem appendBytes_extendsBy {bytes : List Byte} {bitsToAppend : Nat}
    (hbytes : bitsToAppend ≤ 8 * bytes.length) {v : BinaryVector} (hexact : v.ExactBytes)
    (hfree : v.sizeProperty ≠ .fixed) (hbound : v.usedBits + bitsToAppend < uint32Size) :
    ExtendsBy (appendBytes bytes bitsToAppend) v bitsToAppend := by
  induction bytes generalizing bitsToAppend v with
  | nil =>
    have hnone : bitsToAppend = 0 := by simpa using hbytes
    subst hnone
    exact ⟨v, rfl, .refl hexact⟩
  | cons byte rest ih =>
    rw [List.length_cons] at hbytes
    by_cases hwhole : bitsToAppend ≥ 8
    · obtain ⟨v₁, hrun₁, hfirst⟩ := append8_extendsBy hexact hfree (show 0 < 8 by decide)
        (by decide) (by omega) byte .right
      have hused₁ := hfirst.usedBits
      obtain ⟨v₂, hrun₂, hrest⟩ := ih (show bitsToAppend - 8 ≤ _ by omega) hfirst.exactBytes
        (by rwa [hfirst.sizeProperty]) (by omega)
      have hsum : 8 + (bitsToAppend - 8) = bitsToAppend := by omega
      refine ⟨v₂, ?_, hsum ▸ hfirst.trans hrest⟩
      simp only [appendBytes, if_pos hwhole, EStateM.run_bind, hrun₁, hrun₂]
    · by_cases hnone : bitsToAppend = 0
      · subst hnone
        exact ⟨v, rfl, .refl hexact⟩
      · have hlast := append8_extendsBy hexact hfree (Nat.pos_of_ne_zero hnone) (by omega) hbound
          byte .left
        rwa [appendBytes, if_neg hwhole, if_pos hnone]

theorem append_extendsBy {rhs : BinaryVector} (hrhs : rhs.ExactBytes) (hexact : v.ExactBytes)
    (hfree : v.sizeProperty ≠ .fixed) (hbound : v.usedBits + rhs.usedBits < uint32Size) :
    ExtendsBy (append rhs) v rhs.usedBits := by
  have hbytes : rhs.usedBits ≤ 8 * rhs.data.length := by
    rw [hrhs]
    exact le_bytesFor _
  obtain ⟨v', hrun, hextends⟩ := appendBytes_extendsBy hbytes hexact hfree hbound
  refine ⟨v', ?_, hextends⟩
  simp only [append, EStateM.run_bind, checkFixedSize_run hfree, hrun]

/-! ### What the buffer holds behind the used bits -/

theorem unpack_getD (data : List Byte) (i : Nat) :
    (unpack data).getD i false = (data.getD (i / 8) 0).getMsbD (i % 8) := by
  by_cases hi : i < 8 * data.length
  · have hlt : i < (unpack data).length := by rwa [unpack_length]
    have hbyte : i / 8 < data.length := by omega
    rw [List.getD_eq_getElem _ _ hlt, unpack_getElem, List.getD_eq_getElem _ _ hbyte]
  · rw [List.getD_eq_default _ _ (by rw [unpack_length]; omega),
      List.getD_eq_default _ _ (by omega)]
    simp

/-- The bits of the value are added to those that the buffer holds behind the used ones. -/
theorem pushBits_getD_of_aligned {v : BinaryVector} (haligned : v.usedBits % 8 = 0)
    (hbytes : v.usedBits = 8 * v.data.length) (value : Byte) (numberOfBits i : Nat) :
    ((v.pushBits value numberOfBits).data.getD (i / 8) 0).getMsbD (i % 8) =
      ((v.data.getD (i / 8) 0).getMsbD (i % 8) ||
        decide (v.usedBits ≤ i) && value.getMsbD (i - v.usedBits)) := by
  rw [pushBits_aligned haligned]
  by_cases hold : i / 8 < v.data.length
  · rw [List.getD_append _ _ _ _ hold, decide_eq_false (by omega), Bool.false_and, Bool.or_false]
  · rw [List.getD_append_right _ _ _ _ (by omega),
      List.getD_eq_default _ _ (show v.data.length ≤ i / 8 by omega),
      decide_eq_true (show v.usedBits ≤ i by omega)]
    by_cases hlast : i / 8 = v.data.length
    · rw [hlast, show i - v.usedBits = i % 8 by omega]
      simp
    · rw [List.getD_eq_default _ _ (by simp; omega),
        BitVec.getMsbD_of_ge _ _ (show 8 ≤ i - v.usedBits by omega)]
      simp

/-- The bits that the last byte cannot take go to a byte of their own, which is zero when there are none. -/
theorem pushBits_data_getD {v : BinaryVector} {front : List Byte} {last : Byte}
    (hsplit : ¬v.usedBits % 8 = 0) (hlast : v.data = front ++ [last]) (value : Byte)
    {numberOfBits : Nat} (hclear : ∀ k, numberOfBits ≤ k → value.getMsbD k = false) (k : Nat) :
    (v.pushBits value numberOfBits).data.getD k 0 =
      (front ++ [last ||| value >>> (v.usedBits % 8), value <<< (8 - v.usedBits % 8)]).getD k 0 := by
  by_cases hfits : v.usedBits % 8 + numberOfBits ≤ 8
  · have hnothing : value <<< (8 - v.usedBits % 8) = 0 := by
      apply BitVec.eq_of_getMsbD_eq
      intro j hj
      rw [BitVec.getMsbD_shiftLeft, hclear _ (by omega)]
      simp
    rw [pushBits_fits hsplit hfits, hlast, List.modifyLast_concat, hnothing]
    grind
  · rw [pushBits_splits hsplit (by omega), hlast, List.modifyLast_concat]
    simp

theorem pushBits_getD {v : BinaryVector} (hexact : v.ExactBytes) (value : Byte)
    {numberOfBits : Nat} (hclear : ∀ k, numberOfBits ≤ k → value.getMsbD k = false) (i : Nat) :
    (unpack (v.pushBits value numberOfBits).data).getD i false =
      ((unpack v.data).getD i false ||
        decide (v.usedBits ≤ i) && value.getMsbD (i - v.usedBits)) := by
  simp only [unpack_getD]
  rw [ExactBytes] at hexact
  by_cases haligned : v.usedBits % 8 = 0
  · have hbytes : v.usedBits = 8 * v.data.length := by
      rw [hexact, bytesFor]
      omega
    exact pushBits_getD_of_aligned haligned hbytes value numberOfBits i
  · obtain ⟨front, last, hlast⟩ := (List.eq_nil_or_concat' v.data).resolve_left (by
      intro hnone
      rw [hnone, List.length_nil, bytesFor] at hexact
      omega)
    have hused : v.usedBits = 8 * front.length + v.usedBits % 8 := by
      rw [hlast, List.length_append, List.length_singleton, bytesFor] at hexact
      omega
    rw [pushBits_data_getD haligned hlast value hclear, hlast]
    obtain hfront | hfront | hfront := lt_trichotomy (i / 8) front.length
    · rw [List.getD_append _ _ _ _ hfront, List.getD_append _ _ _ _ hfront,
        decide_eq_false (by omega), Bool.false_and, Bool.or_false]
    · rw [hfront]
      by_cases h : v.usedBits ≤ i
      · have hdistance : i - v.usedBits = i % 8 - v.usedBits % 8 := by omega
        have hbehind : ¬i % 8 < v.usedBits % 8 := by omega
        have hbyte : i % 8 < 8 := Nat.mod_lt _ (by decide)
        simp [h, hdistance, hbehind, hbyte]
      · have hbefore : i % 8 < v.usedBits % 8 := by omega
        simp [h, hbefore]
    · have hsecond : i - v.usedBits =
          8 * (i / 8 - front.length - 1) + i % 8 + (8 - v.usedBits % 8) := by omega
      by_cases h : i / 8 = front.length + 1
      · rw [h, decide_eq_true (by omega)]
        simp [hsecond, h]
      · rw [List.getD_eq_default _ _ (by simp; omega), List.getD_eq_default _ _ (by simp; omega),
          BitVec.getMsbD_of_ge _ _ (show 8 ≤ i - v.usedBits by omega)]
        simp

theorem alignLeft_bitByte (bitIsOne : Bool) {numberOfBits : Nat} (hle : numberOfBits ≤ 8)
    (k : Nat) :
    (alignLeft (bitByte bitIsOne) numberOfBits .right).getMsbD k =
      (decide (k < numberOfBits) && bitIsOne) := by
  by_cases hk : k < 8
  · interval_cases numberOfBits <;> interval_cases k <;> cases bitIsOne <;> rfl
  · rw [BitVec.getMsbD_of_ge _ _ (by omega), decide_eq_false (by omega), Bool.false_and]

theorem insertBytes_getD (v : BinaryVector) (bitIsOne : Bool) (bytesCount i : Nat) :
    (unpack (v.insertBytes (bitByte bitIsOne) bytesCount).data).getD i false =
      ((unpack v.data).getD i false ||
        decide (8 * v.data.length ≤ i ∧ i < 8 * v.data.length + 8 * bytesCount) && bitIsOne) := by
  rw [insertBytes, unpack_append, unpack_replicate_bitByte]
  by_cases hold : i < 8 * v.data.length
  · rw [List.getD_append _ _ _ _ (by rwa [unpack_length]), decide_eq_false (by omega),
      Bool.false_and, Bool.or_false]
  · have hnone : (unpack v.data).getD i false = false :=
      List.getD_eq_default _ _ (by rw [unpack_length]; omega)
    rw [List.getD_append_right _ _ _ _ (by rw [unpack_length]; omega), hnone, unpack_length,
      Bool.false_or]
    by_cases hnew : i < 8 * v.data.length + 8 * bytesCount
    · rw [List.getD_replicate _ (by omega), decide_eq_true (by omega), Bool.true_and]
    · rw [List.getD_eq_default _ _ (by rw [List.length_replicate]; omega),
        decide_eq_false (by omega), Bool.false_and]

theorem append8_bitByte_run {v : BinaryVector} (hexact : v.ExactBytes)
    (hfree : v.sizeProperty ≠ .fixed) (bitIsOne : Bool) {numberOfBits : Nat}
    (hpos : 0 < numberOfBits) (hle : numberOfBits ≤ 8)
    (hbound : v.usedBits + numberOfBits < uint32Size) :
    ∃ v', (append8 (bitByte bitIsOne) numberOfBits .right).run v = .ok () v' ∧
      Extends v v' numberOfBits ∧
      ∀ i, (unpack v'.data).getD i false = ((unpack v.data).getD i false ||
        decide (v.usedBits ≤ i ∧ i < v.usedBits + numberOfBits) && bitIsOne) := by
  have hclear : ∀ k, numberOfBits ≤ k →
      (alignLeft (bitByte bitIsOne) numberOfBits .right).getMsbD k = false := by
    intro k hk
    rw [alignLeft_bitByte _ hle, decide_eq_false (by omega), Bool.false_and]
  refine ⟨_, append8_run hpos hle hfree hexact.backValid _ _,
    pushBits_extends hexact _ hpos hle hbound, ?_⟩
  intro i
  rw [pushBits_getD hexact _ hclear, alignLeft_bitByte _ hle, ← Bool.and_assoc, ← Bool.decide_and]
  congr 3
  simp only [eq_iff_iff]
  omega

/-- `appendBits` adds its bit to those that the buffer holds behind the used ones; what a vector of whole bytes appended to it held there stays. -/
theorem appendBits_getD {v : BinaryVector} (hexact : v.ExactBytes)
    (hfree : v.sizeProperty ≠ .fixed) (bitIsOne : Bool) {count : Nat}
    (hbound : v.usedBits + count < uint32Size) :
    ∃ v', (appendBits bitIsOne count).run v = .ok () v' ∧ Extends v v' count ∧
      ∀ i, v.usedBits ≤ i → i < v.usedBits + count →
        (unpack v'.data).getD i false = ((unpack v.data).getD i false ||
          bitIsOne && decide (count < 8 ∨ 8 * v.data.length ≤ i)) := by
  have hinside := le_bytesFor v.usedBits
  have hless := bytesFor_lt v.usedBits
  rw [← hexact] at hinside hless
  have hinsert := insertBytes_extends hexact (bitByte bitIsOne) (count / 8) (by omega)
  have hinserted := insertBytes_getD v bitIsOne (count / 8)
  have hsum : 8 * (count / 8) + count % 8 = count := Nat.div_add_mod count 8
  rw [appendBits_run (by omega)]
  by_cases hrem : count % 8 = 0
  · rw [if_pos hrem]
    have hall : 8 * (count / 8) = count := by omega
    rw [hall] at hinsert
    refine ⟨_, rfl, hinsert, ?_⟩
    intro i hlow hhigh
    rw [hinserted, Bool.and_comm bitIsOne]
    congr 3
    simp only [eq_iff_iff]
    omega
  · rw [if_neg hrem]
    have hused := hinsert.usedBits
    obtain ⟨v', hrun, hrest, hbits⟩ := append8_bitByte_run hinsert.exactBytes hfree bitIsOne
      (Nat.pos_of_ne_zero hrem) (by omega) (by omega)
    refine ⟨v', hrun, hsum ▸ hinsert.trans hrest, ?_⟩
    intro i hlow hhigh
    rw [hbits, hinserted, hused, Bool.or_assoc, ← Bool.and_or_distrib_right, Bool.and_comm bitIsOne,
      ← Bool.decide_or]
    congr 3
    simp only [eq_iff_iff]
    omega

/-- The bits a longer vector has in excess are copies of one bit when its buffer holds that bit there. -/
theorem Extends.copies_iff {v v' : BinaryVector} {count : Nat} (hexact : v.ExactBytes)
    (h : Extends v v' count) (bitIsOne : Bool) :
    v'.bits = v.bits ++ List.replicate count bitIsOne ↔
      ∀ i, v.usedBits ≤ i → i < v.usedBits + count → (unpack v'.data).getD i false = bitIsOne := by
  obtain ⟨added, hadded⟩ := h.bits
  have hlength := hexact.bits_length
  have hcount : added.length = count := by
    have hlength' := h.exactBytes.bits_length
    rw [← hadded, List.length_append, h.usedBits] at hlength'
    omega
  have hbit : ∀ i, v.usedBits ≤ i → i < v.usedBits + count →
      added[i - v.usedBits]? = some ((unpack v'.data).getD i false) := by
    intro i hlow hhigh
    have hi : i < (unpack v'.data).length := by
      have := le_bytesFor v'.usedBits
      rw [unpack_length, h.exactBytes]
      have := h.usedBits
      omega
    have htake : v'.bits[i]? = some ((unpack v'.data).getD i false) := by
      rw [BinaryVector.bits, List.getElem?_take_of_lt (by rw [h.usedBits]; omega),
        List.getElem?_eq_getElem hi, List.getD_eq_getElem _ _ hi]
    rw [← htake, ← hadded, List.getElem?_append_right (by omega), hlength]
  rw [← hadded, List.append_cancel_left_eq, List.eq_replicate_iff]
  constructor
  · rintro ⟨-, hall⟩ i hlow hhigh
    exact hall _ (List.mem_of_getElem? (hbit i hlow hhigh))
  · intro hall
    refine ⟨hcount, ?_⟩
    intro bit hmem
    obtain ⟨k, hk, rfl⟩ := List.getElem_of_mem hmem
    have hsame := hbit (v.usedBits + k) (by omega) (by omega)
    rw [Nat.add_sub_cancel_left, List.getElem?_eq_getElem hk, hall _ (by omega) (by omega)] at hsame
    exact Option.some.inj hsame

/-! ### Copies of one bit -/

/-- As many bits as are asked for, one call a bit. -/
def appendOneByOne (bitIsOne : Bool) : Nat → Mutation Unit
  | 0 => pure ()
  | count + 1 => do
    appendBits bitIsOne 1
    appendOneByOne bitIsOne count

/-- `AppendBits(bit, count)` gives the vector followed by `count` copies of the bit. -/
def AppendsCopies (v : BinaryVector) (bitIsOne : Bool) (count : Nat) : Prop :=
  ∃ v', (appendBits bitIsOne count).run v = .ok () v' ∧
    v'.bits = v.bits ++ List.replicate count bitIsOne

/-- Appended one by one, the bits are added to those the buffer holds. -/
theorem appendOneByOne_getD {v : BinaryVector} (hexact : v.ExactBytes)
    (hfree : v.sizeProperty ≠ .fixed) (bitIsOne : Bool) {count : Nat}
    (hbound : v.usedBits + count < uint32Size) :
    ∃ v', (appendOneByOne bitIsOne count).run v = .ok () v' ∧ Extends v v' count ∧
      ∀ i, (unpack v'.data).getD i false = ((unpack v.data).getD i false ||
        decide (v.usedBits ≤ i ∧ i < v.usedBits + count) && bitIsOne) := by
  induction count generalizing v with
  | zero =>
    refine ⟨v, rfl, .refl hexact, ?_⟩
    intro i
    rw [decide_eq_false (by omega), Bool.false_and, Bool.or_false]
  | succ count ih =>
    obtain ⟨v₁, hrun₁, hfirst, hbits₁⟩ := append8_bitByte_run hexact hfree bitIsOne
      (show 0 < 1 by decide) (by decide) (by omega)
    have hone : (appendBits bitIsOne 1).run v = .ok () v₁ := by
      rw [appendBits_run (by omega), if_neg (by decide), insertBytes_zero (by omega)]
      exact hrun₁
    have hused₁ := hfirst.usedBits
    obtain ⟨v₂, hrun₂, hrest, hbits₂⟩ := ih hfirst.exactBytes (by rwa [hfirst.sizeProperty])
      (by omega)
    refine ⟨v₂, ?_, Nat.add_comm 1 count ▸ hfirst.trans hrest, ?_⟩
    · rw [appendOneByOne, EStateM.run_bind, hone]
      exact hrun₂
    · intro i
      rw [hbits₂, hbits₁, hused₁, Bool.or_assoc, ← Bool.and_or_distrib_right, ← Bool.decide_or]
      congr 3
      simp only [eq_iff_iff]
      omega

/-- The bits of the last byte that a vector does not use; nothing makes them zeros. -/
def unusedBits (v : BinaryVector) : List Bool := (unpack v.data).drop v.usedBits

/-- What the buffer holds where the copies of a bit come: either ones are added to it, or it is copies of the bit. -/
def TakesCopies (v : BinaryVector) (bitIsOne : Bool) (count : Nat) : Prop :=
  bitIsOne = true ∧ count < 8 ∨ ∀ bit ∈ v.unusedBits.take count, bit = bitIsOne

instance (v : BinaryVector) (bitIsOne : Bool) (count : Nat) :
    Decidable (v.TakesCopies bitIsOne count) :=
  inferInstanceAs (Decidable (_ ∨ _))

theorem takesCopies_iff (v : BinaryVector) (bitIsOne : Bool) (count : Nat) :
    v.TakesCopies bitIsOne count ↔ ∀ i, v.usedBits ≤ i → i < v.usedBits + count →
      ((unpack v.data).getD i false ||
        bitIsOne && decide (count < 8 ∨ 8 * v.data.length ≤ i)) = bitIsOne := by
  constructor
  · rintro (⟨rfl, hfew⟩ | hunused) i hlow hhigh
    · rw [decide_eq_true (.inl hfew), Bool.and_true, Bool.or_true]
    · by_cases hi : i < 8 * v.data.length
      · have hbit : (unpack v.data).getD i false = bitIsOne := by
          apply hunused
          rw [unusedBits, List.mem_take_iff_getElem]
          refine ⟨i - v.usedBits, by rw [List.length_drop, unpack_length]; omega, ?_⟩
          have hback : v.usedBits + (i - v.usedBits) = i := by omega
          simp only [List.getElem_drop, hback]
          rw [List.getD_eq_getElem]
        rw [hbit]
        cases bitIsOne <;> rfl
      · rw [List.getD_eq_default _ _ (by rw [unpack_length]; omega),
          decide_eq_true (.inr (by omega)), Bool.and_true, Bool.false_or]
  · intro hall
    by_cases hones : bitIsOne = true ∧ count < 8
    · exact .inl hones
    · refine .inr ?_
      intro bit hmem
      rw [unusedBits, List.mem_take_iff_getElem] at hmem
      obtain ⟨k, hk, rfl⟩ := hmem
      rw [List.length_drop, unpack_length] at hk
      have hbit := hall (v.usedBits + k) (by omega) (by omega)
      rw [List.getD_eq_getElem _ _ (by rw [unpack_length]; omega)] at hbit
      rw [List.getElem_drop]
      cases bitIsOne
      · simpa using hbit
      · rwa [decide_eq_false (by simp at hones; omega), Bool.and_false, Bool.or_false] at hbit

/-- `AppendBits(bit, count)` leaves a vector equal to the one that as many calls for one bit leave. -/
def MatchesOneByOne (v : BinaryVector) (bitIsOne : Bool) (count : Nat) : Prop :=
  ∃ v₁ v₂, (appendBits bitIsOne count).run v = .ok () v₁ ∧
    (appendOneByOne bitIsOne count).run v = .ok () v₂ ∧ v₁.compareEqualTo v₂ = true

theorem takesCopies_oneByOne {v : BinaryVector} {bitIsOne : Bool} {count : Nat}
    (htakes : v.TakesCopies bitIsOne count) {i : Nat} (hlow : v.usedBits ≤ i)
    (hhigh : i < v.usedBits + count) :
    ((unpack v.data).getD i false || bitIsOne) = bitIsOne := by
  have hbit := (takesCopies_iff v bitIsOne count).mp htakes i hlow hhigh
  cases bitIsOne
  · simpa using hbit
  · exact Bool.or_true _

theorem appendBits_repeats_iff {v : BinaryVector} (hv : v.Stored) (hfree : v.sizeProperty ≠ .fixed)
    (bitIsOne : Bool) (count : Fin uint32Size) :
    AppendsCopies v bitIsOne count ∧ MatchesOneByOne v bitIsOne count ↔
      v.usedBits + count < uint32Size ∧ v.TakesCopies bitIsOne count := by
  have hexact := hv.exactBytes
  constructor
  · rintro ⟨⟨v', hrun, hbits⟩, -⟩
    have hbound : v.usedBits + count.val < uint32Size := by
      obtain ⟨v'', hrun', hused, -, -⟩ := appendBits_lengthens hfree hexact.backValid hv.usedBits_lt bitIsOne count.val
      obtain rfl : v'' = v' := by
        rw [hrun] at hrun'
        cases hrun'
        rfl
      have hcount := congrArg List.length hbits
      rw [List.length_append, List.length_replicate, hexact.bits_length] at hcount
      have hle : v''.bits.length ≤ v''.usedBits := List.length_take_le _ _
      rw [hused] at hle
      have hlt := Nat.mod_lt (v.usedBits + count.val) (show 0 < uint32Size by decide)
      omega
    refine ⟨hbound, (takesCopies_iff v _ _).mpr ?_⟩
    obtain ⟨v'', hrun', hextends, hheld⟩ := appendBits_getD hexact hfree bitIsOne hbound
    obtain rfl : v'' = v' := by
      rw [hrun] at hrun'
      cases hrun'
      rfl
    intro i hlow hhigh
    rw [← hheld i hlow hhigh]
    exact (hextends.copies_iff hexact bitIsOne).mp hbits i hlow hhigh
  · rintro ⟨hbound, htakes⟩
    obtain ⟨v₁, hrun₁, hextends₁, hheld₁⟩ := appendBits_getD hexact hfree bitIsOne hbound
    obtain ⟨v₂, hrun₂, hextends₂, hheld₂⟩ := appendOneByOne_getD hexact hfree bitIsOne hbound
    have hbits₁ : v₁.bits = v.bits ++ List.replicate count.val bitIsOne := by
      rw [hextends₁.copies_iff hexact]
      intro i hlow hhigh
      rw [hheld₁ i hlow hhigh]
      exact (takesCopies_iff v bitIsOne count).mp htakes i hlow hhigh
    have hbits₂ : v₂.bits = v.bits ++ List.replicate count.val bitIsOne := by
      rw [hextends₂.copies_iff hexact]
      intro i hlow hhigh
      rw [hheld₂, decide_eq_true ⟨hlow, hhigh⟩, Bool.true_and]
      exact takesCopies_oneByOne htakes hlow hhigh
    exact ⟨⟨v₁, hrun₁, hbits₁⟩, v₁, v₂, hrun₁, hrun₂,
      (compareEqualTo_iff hextends₁.exactBytes hextends₂.exactBytes).mpr (hbits₁.trans hbits₂.symm)⟩

/-- Seven ones after three bits, and eight ones after nine bits that seven ones follow in the buffer. -/
theorem appendBits_repeats_ones :
    AppendsCopies (ofBits [true, false, true] .notFixed) true 7 ∧
      AppendsCopies ⟨[0x80, 0xFF], 9, .notFixed⟩ true 8 :=
  ⟨((appendBits_repeats_iff (v := ofBits [true, false, true] .notFixed) ⟨by decide, by decide⟩
      (by decide) true ⟨7, by decide⟩).mpr ⟨by decide, by decide⟩).1,
    ((appendBits_repeats_iff (v := ⟨[0x80, 0xFF], 9, .notFixed⟩) ⟨by decide, by decide⟩
      (by decide) true ⟨8, by decide⟩).mpr ⟨by decide, by decide⟩).1⟩

/-- Eight ones after a single bit are seven zeros and a one. -/
theorem eight_ones_not_appended :
    ¬∀ (v : BinaryVector) (bitIsOne : Bool) (count : Fin uint32Size), v.Stored →
      v.sizeProperty ≠ .fixed → AppendsCopies v bitIsOne count := by
  intro hclaim
  have hone := hclaim (ofBits [true] .notFixed) true ⟨8, by decide⟩ ⟨by decide, by decide⟩
    (by decide)
  obtain ⟨v', hrun, hbits⟩ := hone
  have hcall : (appendBits true 8).run (ofBits [true] .notFixed) =
      .ok () ⟨[0x80, 0xFF], 9, .notFixed⟩ := rfl
  obtain rfl : (⟨[0x80, 0xFF], 9, .notFixed⟩ : BinaryVector) = v' := by
    rw [hcall] at hrun
    cases hrun
    rfl
  exact absurd hbits (by decide)

end BinaryVector

end Mast
