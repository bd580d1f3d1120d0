import Mast.BinaryVector.DecimalNumbers

/-!
# Vectors of a requested size

A number of a network gets the size that is asked for on its left side: zeros in front of its bits, or fewer leading zeros. It keeps its value in this, and a number that does not fit is refused.
-/

namespace Mast

open BitPacking

namespace BinaryVector

def adjustSize (targetBitsCount : Nat) : Mutation Unit := do
  let v ← get
  let currentBitsCount := v.bitsCount
  if targetBitsCount > currentBitsCount then
    prependBits (targetBitsCount - currentBitsCount) 0
  else if targetBitsCount < currentBitsCount then
    truncateLeadingZeroes (currentBitsCount - targetBitsCount)

/-! ### Leading zeros -/

private theorem takeWhile_take_length {α : Type} (p : α → Bool) (count : Nat) (l : List α) :
    ((l.take count).takeWhile p).length = min count (l.takeWhile p).length := by
  induction l generalizing count with
  | nil => simp
  | cons a l ih =>
    cases count with
    | zero => simp
    | succ count =>
      rw [List.take_succ_cons, List.takeWhile_cons, List.takeWhile_cons]
      cases p a
      · simp
      · simp only [if_true, List.length_cons, ih]
        omega

/-- The table of nibbles counts the leading zeros of a byte. -/
theorem nibbles_leadingZeroes (byte : Byte) :
    byte ≠ 0 →
      (if nibbleLeadingZeroes (byte >>> 4) = 4 then
        nibbleLeadingZeroes (byte >>> 4) + nibbleLeadingZeroes (byte &&& 0x0F)
      else nibbleLeadingZeroes (byte >>> 4)) = ((byteBits byte).takeWhile (!·)).length ∧
        ((byteBits byte).takeWhile (!·)).length < 8 := by
  revert byte
  decide +kernel

theorem leadingZeroesCount_loop_eq (data : List Byte) (count remainingBits : Nat) :
    leadingZeroesCount.loop data count remainingBits =
      count + (((unpack data).take remainingBits).takeWhile (!·)).length := by
  induction data generalizing count remainingBits with
  | nil => simp [leadingZeroesCount.loop]
  | cons bits rest ih =>
    rw [leadingZeroesCount.loop, takeWhile_take_length, unpack_cons]
    by_cases hzero : bits = 0
    · subst hzero
      have hbits : byteBits 0 = List.replicate 8 false := rfl
      rw [if_pos rfl, hbits, List.takeWhile_append_of_pos (by simp), List.length_append,
        List.length_replicate]
      by_cases hmany : remainingBits ≥ 8
      · rw [if_pos hmany, ih, takeWhile_take_length]
        omega
      · rw [if_neg hmany]
        omega
    · obtain ⟨hcount, hless⟩ := nibbles_leadingZeroes bits hzero
      have hstops : ((byteBits bits).takeWhile (!·)).length ≠ (byteBits bits).length := by
        rw [byteBits_length]
        omega
      rw [if_neg hzero, List.takeWhile_append, if_neg hstops]
      simp only [hcount]
      omega

theorem le_leadingZeroesCount_iff {l : List Bool} {count : Nat} (hcount : count ≤ l.length)
    (p : SizeProperty) :
    count ≤ (ofBits l p).leadingZeroesCount ↔ ∀ bit ∈ l.take count, bit = false := by
  have hall : (∀ bit ∈ l.take count, bit = false) ↔
      (l.take count).takeWhile (!·) = l.take count := by
    rw [List.takeWhile_eq_self_iff]
    simp
  have hlength : (l.take count).length = count := by
    rw [List.length_take, Nat.min_eq_left hcount]
  have hfront := List.takeWhile_prefix (fun bit => !bit) (l := l.take count)
  have hfew := takeWhile_take_length (fun bit => !bit) count l
  have hsame : (unpack (ofBits l p).data).take (ofBits l p).usedBits = l := bits_ofBits l p
  rw [leadingZeroesCount, leadingZeroesCount_loop_eq, hsame, Nat.zero_add, hall]
  constructor
  · intro hle
    exact hfront.eq_of_length (by omega)
  · intro heq
    rw [heq] at hfew
    omega

/-! ### Sizes -/

def adjusted (targetBitsCount : Nat) (l : List Bool) : List Bool :=
  List.replicate (targetBitsCount - l.length) false ++ l.drop (l.length - targetBitsCount)

@[simp] theorem adjusted_length (targetBitsCount : Nat) (l : List Bool) :
    (adjusted targetBitsCount l).length = targetBitsCount := by
  rw [adjusted, List.length_append, List.length_replicate, List.length_drop]
  omega

theorem prependBits_zero {l : List Bool} {bitsCount : Nat} (hroom : bitsCount + 7 < uint32Size)
    (hsum : bitsCount + l.length < uint32Size) :
    (prependBits bitsCount 0).run (ofBits l .notFixed) =
      .ok () (ofBits (List.replicate bitsCount false ++ l) .notFixed) := by
  have hexact : ExactBytes ⟨List.replicate (bytesCountFromBitsCount bitsCount) (0 : Byte),
      bitsCount, .notFixed⟩ := by
    rw [ExactBytes, List.length_replicate, bytesCountFromBitsCount_eq hroom]
  have hzeros : bits ⟨List.replicate (bytesCountFromBitsCount bitsCount) (0 : Byte),
      bitsCount, .notFixed⟩ = List.replicate bitsCount false := by
    have hle := le_bytesFor bitsCount
    rw [bits, unpack_replicate_zero, List.take_replicate, bytesCountFromBitsCount_eq hroom,
      Nat.min_eq_left hle]
  have hfill : ofFillPattern bitsCount 0 .notFixed =
      .ok (ofBits (List.replicate bitsCount false) .notFixed) := by
    rw [ofFillPattern, build_maskLastByte hexact, hzeros]
  have happend := append_ofBits (l := List.replicate bitsCount false) (p := .notFixed)
    (ofBits_wellFormed l .notFixed).exactBytes SizeProperty.noConfusion
    (by rwa [List.length_replicate, ofBits_usedBits])
  rw [bits_ofBits] at happend
  have hbuild : build (ofBits (List.replicate bitsCount false) .notFixed)
      (append (ofBits l .notFixed)) =
        .ok (ofBits (List.replicate bitsCount false ++ l) .notFixed) := by
    rw [build, happend]
  simp only [prependBits, EStateM.run_bind, EStateM.run_get, hfill, orThrow_ok, hbuild]
  exact assign_run fun h => SizeProperty.noConfusion h

private theorem adjustSize_eq (v : BinaryVector) (targetBitsCount : Nat) :
    (adjustSize targetBitsCount).run v =
      (if targetBitsCount > v.usedBits then prependBits (targetBitsCount - v.usedBits) 0
      else if targetBitsCount < v.usedBits then truncateLeadingZeroes (v.usedBits - targetBitsCount)
      else pure ()).run v := by
  simp only [adjustSize, EStateM.run_bind, EStateM.run_get]
  rfl

theorem adjustSize_run {l : List Bool} {targetBitsCount : Nat}
    (htarget : targetBitsCount < uint32Size) (hlength : l.length < uint32Size)
    (hroom : targetBitsCount + 7 < uint32Size + l.length)
    (hzero : ∀ bit ∈ l.take (l.length - targetBitsCount), bit = false) :
    (adjustSize targetBitsCount).run (ofBits l .notFixed) =
      .ok () (ofBits (adjusted targetBitsCount l) .notFixed) := by
  rw [adjustSize_eq, ofBits_usedBits]
  rcases Nat.lt_trichotomy targetBitsCount l.length with hless | hsame | hmore
  · have hcount := (le_leadingZeroesCount_iff (Nat.sub_le _ _) .notFixed).mpr hzero
    have hnone : targetBitsCount - l.length = 0 := by omega
    rw [if_neg (by omega), if_pos hless, truncateLeadingZeroes_run
      ⟨(ofBits_wellFormed l _).exactBytes, hlength⟩ hcount, bits_ofBits, adjusted, hnone,
      List.replicate_zero, List.nil_append]
    exact assign_run fun h => SizeProperty.noConfusion h
  · rw [if_neg (by omega), if_neg (by omega), adjusted, hsame, Nat.sub_self, List.drop_zero,
      List.replicate_zero, List.nil_append]
    rfl
  · have hnone : l.length - targetBitsCount = 0 := by omega
    rw [if_pos hmore, prependBits_zero (by omega) (by omega), adjusted, hnone, List.drop_zero]

theorem adjustSize_rejects {l : List Bool} {targetBitsCount : Nat}
    (hone : ¬∀ bit ∈ l.take (l.length - targetBitsCount), bit = false) :
    Rejects (adjustSize targetBitsCount) (ofBits l .notFixed) := by
  have hless : targetBitsCount < l.length := by
    by_contra hle
    have hnone : l.length - targetBitsCount = 0 := by omega
    rw [hnone, List.take_zero] at hone
    exact hone fun bit hbit => absurd hbit List.not_mem_nil
  refine Rejects.of_run (EStateM.run_get _) ?_
  rw [bitsCount, ofBits_usedBits, if_neg (by omega), if_pos hless]
  apply truncateLeadingZeroes_rejects
  by_contra hle
  exact hone ((le_leadingZeroesCount_iff (Nat.sub_le _ _) .notFixed).mp (by omega))

/-! ### Whatever is adjusted -/

/-- The buffer has the used bits, and their count is a `uint32_t`. -/
structure Covered (v : BinaryVector) : Prop where
  usedBits_le : v.usedBits ≤ 8 * v.data.length
  usedBits_lt : v.usedBits < uint32Size

theorem Covered.bits_length {v : BinaryVector} (hv : v.Covered) : v.bits.length = v.usedBits := by
  rw [bits, List.length_take, unpack_length]
  exact Nat.min_eq_left hv.usedBits_le

theorem Covered.backValid {v : BinaryVector} (hv : v.Covered) : v.BackValid := by
  intro hrem hempty
  have hle := hv.usedBits_le
  rw [hempty, List.length_nil] at hle
  omega

theorem ofBits_covered {l : List Bool} (hlength : l.length < uint32Size) (p : SizeProperty) :
    (ofBits l p).Covered where
  usedBits_le := by
    rw [ofBits_usedBits, ofBits_data, pack_length]
    exact le_bytesFor _
  usedBits_lt := hlength

/-- A command that returns has left a vector of so many bits. -/
def Makes (mutation : Mutation Unit) (v : BinaryVector) (count : Nat) : Prop :=
  ∀ v', mutation.run v = .ok () v' → v'.Covered ∧ v'.usedBits = count

theorem Rejects.makes {mutation : Mutation Unit} {v : BinaryVector}
    (hrejects : Rejects mutation v) (count : Nat) : Makes mutation v count := by
  intro v' hrun
  obtain ⟨fault, -, herror⟩ := hrejects
  cases herror.symm.trans hrun

private theorem length_modifyLast (data : List Byte) (f : Byte → Byte) :
    (data.modifyLast f).length = data.length := by
  rcases List.eq_nil_or_concat' data with rfl | ⟨front, last, rfl⟩
  · rfl
  · rw [List.modifyLast_concat, List.length_append, List.length_append]
    rfl

theorem pushBits_covered {v : BinaryVector} (hv : v.Covered) {count : Nat} (hle : count ≤ 8)
    (value : Byte) : (v.pushBits value count).Covered := by
  have hmod : (v.usedBits + count) % uint32Size ≤ v.usedBits + count := Nat.mod_le _ _
  have hused := hv.usedBits_le
  refine ⟨?_, Nat.mod_lt _ (by decide)⟩
  rw [pushBits_usedBits]
  by_cases haligned : v.usedBits % 8 = 0
  · rw [pushBits_aligned haligned, List.length_append, List.length_singleton]
    omega
  · by_cases hfits : v.usedBits % 8 + count ≤ 8
    · rw [pushBits_fits haligned hfits, length_modifyLast]
      omega
    · rw [pushBits_splits haligned (by omega), List.length_append, length_modifyLast,
        List.length_singleton]
      omega

theorem append8_makes {v : BinaryVector} (hv : v.Covered) (value : Byte) (count : Nat)
    (alignment : BitsAlignment) :
    Makes (append8 value count alignment) v ((v.usedBits + count) % uint32Size) := by
  by_cases hrejects : v.sizeProperty = .fixed ∨ count = 0 ∨ 8 < count
  · exact (append8_rejects hrejects value alignment).makes _
  · obtain ⟨hfree, hne, hle⟩ := not_or.mp hrejects |>.imp_right not_or.mp
    intro v' hrun
    rw [append8_run (by omega) (by omega) hfree hv.backValid] at hrun
    cases hrun
    exact ⟨pushBits_covered hv (by omega) _, rfl⟩

theorem appendBytes_makes {v : BinaryVector} (hv : v.Covered) (bytes : List Byte) (count : Nat) :
    Makes (appendBytes bytes count) v ((v.usedBits + count) % uint32Size) := by
  induction bytes generalizing v count with
  | nil =>
    intro v' hrun
    by_cases hnone : count = 0
    · subst hnone
      cases hrun
      exact ⟨hv, (Nat.mod_eq_of_lt hv.usedBits_lt).symm⟩
    · rw [appendBytes, if_neg hnone] at hrun
      cases hrun
  | cons byte rest ih =>
    intro v' hrun
    rw [appendBytes] at hrun
    by_cases hwhole : count ≥ 8
    · rw [if_pos hwhole, EStateM.run_bind] at hrun
      split at hrun
      · rename_i v₁ hfirst
        obtain ⟨hcovered, hused⟩ := append8_makes hv byte 8 .right v₁ hfirst
        obtain ⟨hcovered, hrest⟩ := ih hcovered (count - 8) v' hrun
        refine ⟨hcovered, ?_⟩
        rw [hrest, hused, Nat.mod_add_mod]
        congr 1
        omega
      · cases hrun
    · rw [if_neg hwhole] at hrun
      by_cases hnone : count = 0
      · subst hnone
        cases hrun
        exact ⟨hv, (Nat.mod_eq_of_lt hv.usedBits_lt).symm⟩
      · rw [if_pos hnone] at hrun
        exact append8_makes hv byte count .left v' hrun

theorem append_makes {v : BinaryVector} (hv : v.Covered) (rhs : BinaryVector) :
    Makes (append rhs) v ((v.usedBits + rhs.usedBits) % uint32Size) := by
  by_cases hfixed : v.sizeProperty = .fixed
  · exact (append_rejects hfixed rhs).makes _
  · intro v' hrun
    rw [append, EStateM.run_bind, checkFixedSize_run hfixed] at hrun
    exact appendBytes_makes hv rhs.data rhs.usedBits v' hrun

theorem Makes.build {mutation : Mutation Unit} {v v' : BinaryVector} {count : Nat}
    (hmakes : Makes mutation v count) (hbuild : build v mutation = .ok v') :
    v'.Covered ∧ v'.usedBits = count := by
  rw [BinaryVector.build] at hbuild
  split at hbuild
  · rename_i hrun
    cases hbuild
    exact hmakes _ hrun
  · cases hbuild

theorem slice_covered {v v' : BinaryVector} {first count : Nat} (hcount : count < uint32Size)
    (hslice : v.slice first count = .ok v') : v'.Covered ∧ v'.usedBits = count := by
  have hempty : empty.Covered := ofBits_covered (l := []) (by decide) .notFixed
  rw [slice] at hslice
  split at hslice
  · rename_i hnone
    cases hslice
    exact ⟨hempty, hnone.symm⟩
  split at hslice
  · cases hslice
  split at hslice
  · cases hslice
  refine Makes.build (fun v' hrun => ?_) hslice
  cases hbyte : v.data[first / 8]? with
  | none =>
    simp only [hbyte] at hrun
    cases hrun
  | some byte =>
    simp only [hbyte] at hrun
    rw [EStateM.run_bind] at hrun
    split at hrun
    · rename_i v₁ hfirst
      obtain ⟨hcovered, hused⟩ := append8_makes hempty _ _ _ v₁ hfirst
      obtain ⟨hcovered, hrest⟩ := appendBytes_makes hcovered _ _ v' hrun
      refine ⟨hcovered, ?_⟩
      have hzero : empty.usedBits = 0 := rfl
      rw [hrest, hused, Nat.mod_add_mod, hzero]
      exact (congrArg (· % uint32Size) (by omega)).trans (Nat.mod_eq_of_lt hcount)
    · cases hrun

theorem assign_makes {v rhs : BinaryVector} (hrhs : rhs.Covered) :
    Makes (assign rhs) v rhs.usedBits := by
  intro v' hrun
  by_cases hrejects : v.sizeProperty = .fixed ∧ rhs.usedBits ≠ v.usedBits
  · exact (assign_rejects hrejects.1 hrejects.2).makes _ v' hrun
  · rw [assign_run fun hfixed => not_not.mp fun hne => hrejects ⟨hfixed, hne⟩] at hrun
    cases hrun
    exact ⟨⟨hrhs.usedBits_le, hrhs.usedBits_lt⟩, rfl⟩

theorem prependBits_makes {v : BinaryVector} {count : Nat} (hcount : count < uint32Size)
    (fillPattern : Byte) :
    Makes (prependBits count fillPattern) v ((count + v.usedBits) % uint32Size) := by
  intro v' hrun
  simp only [prependBits, EStateM.run_bind, EStateM.run_get] at hrun
  cases hfill : ofFillPattern count fillPattern .notFixed with
  | error fault =>
    rw [hfill] at hrun
    cases hrun
  | ok zeros =>
    obtain ⟨l, hlength, hzeros⟩ := ofFillPattern_eq (ofFillPattern_within hcount hfill) fillPattern
      .notFixed
    obtain rfl := Except.ok.inj (hfill.symm.trans hzeros)
    simp only [hfill, orThrow_ok] at hrun
    cases hbuild : BinaryVector.build (ofBits l .notFixed) (append v) with
    | error fault =>
      rw [hbuild] at hrun
      cases hrun
    | ok tmp =>
      rw [hbuild, orThrow_ok] at hrun
      obtain ⟨hcovered, hused⟩ :=
        (append_makes (ofBits_covered (by omega) _) v).build hbuild
      obtain ⟨hcovered', hused'⟩ := assign_makes hcovered v' hrun
      rw [hused', hused, ofBits_usedBits, hlength]
      exact ⟨hcovered', rfl⟩

theorem truncateLeadingZeroes_makes {v : BinaryVector} (hv : v.usedBits < uint32Size)
    (count : Nat) : Makes (truncateLeadingZeroes count) v (v.usedBits - count) := by
  by_cases hrejects : v.leadingZeroesCount < count
  · exact (truncateLeadingZeroes_rejects hrejects).makes _
  · intro v' hrun
    have hle : count ≤ v.leadingZeroesCount := Nat.le_of_not_lt hrejects
    simp only [truncateLeadingZeroes, EStateM.run_bind, EStateM.run_get,
      check_run (hle.trans v.leadingZeroesCount_le), check_run hle] at hrun
    cases hslice : v.slice count (v.usedBits - count) with
    | error fault =>
      rw [hslice] at hrun
      cases hrun
    | ok tmp =>
      rw [hslice, orThrow_ok] at hrun
      obtain ⟨hcovered, hused⟩ := slice_covered (by omega) hslice
      obtain ⟨hcovered', hused'⟩ := assign_makes hcovered v' hrun
      exact ⟨hcovered', hused'.trans hused⟩

/-- An adjustment that does not throw gives the bits that are asked for. -/
theorem adjustSize_makes {v : BinaryVector} (hv : v.Covered) {targetBitsCount : Nat}
    (htarget : targetBitsCount < uint32Size) :
    Makes (adjustSize targetBitsCount) v targetBitsCount := by
  have hused := hv.usedBits_lt
  intro v' hrun
  rw [adjustSize_eq] at hrun
  rcases Nat.lt_trichotomy targetBitsCount v.usedBits with hless | hsame | hmore
  · rw [if_neg (by omega), if_pos hless] at hrun
    obtain ⟨hcovered, hcount⟩ := truncateLeadingZeroes_makes hused _ v' hrun
    exact ⟨hcovered, by omega⟩
  · rw [if_neg (by omega), if_neg (by omega)] at hrun
    cases hrun
    exact ⟨hv, hsame.symm⟩
  · rw [if_pos hmore] at hrun
    obtain ⟨hcovered, hcount⟩ := prependBits_makes (by omega) 0 v' hrun
    refine ⟨hcovered, ?_⟩
    rw [hcount, Nat.sub_add_cancel hmore.le, Nat.mod_eq_of_lt htarget]

/-! ### Values -/

/-- A number loses nothing but zeros exactly when it fits. -/
theorem numberBits_fits_iff {targetBitsCount width number : Nat} (hnumber : number < 2 ^ width) :
    (∀ bit ∈ (numberBits width number).take (width - targetBitsCount), bit = false) ↔
      number < 2 ^ targetBitsCount := by
  constructor
  · intro hzero
    by_contra hlarge
    obtain ⟨i, hi, hbit⟩ := Nat.exists_ge_and_testBit_of_ge_two_pow (Nat.le_of_not_lt hlarge)
    have hin : i < width := by
      by_contra hout
      have hpow : 2 ^ width ≤ 2 ^ i := Nat.pow_le_pow_right (by decide) (by omega)
      rw [Nat.testBit_lt_two_pow (by omega)] at hbit
      cases hbit
    have hget : ((numberBits width number).take (width - targetBitsCount))[width - 1 - i]? =
        some true := by
      have hindex : width - 1 - (width - 1 - i) = i := by omega
      rw [List.getElem?_take_of_lt (by omega), numberBits, List.getElem?_map,
        List.getElem?_range (by omega), Option.map_some, hindex, hbit]
    exact absurd (hzero true (List.mem_of_getElem? hget)) (by decide)
  · intro hfits bit hbit
    obtain ⟨i, hi, rfl⟩ := List.mem_iff_getElem.mp hbit
    rw [List.length_take, numberBits_length] at hi
    simp only [numberBits, List.getElem_take, List.getElem_map, List.getElem_range]
    apply Nat.testBit_lt_two_pow
    exact lt_of_lt_of_le hfits (Nat.pow_le_pow_right (by decide) (by omega))

theorem adjusted_numberBits {targetBitsCount width number : Nat} (hnumber : number < 2 ^ width)
    (hfits : number < 2 ^ targetBitsCount) :
    adjusted targetBitsCount (numberBits width number) = numberBits targetBitsCount number := by
  rw [adjusted, numberBits_length]
  rcases Nat.le_total targetBitsCount width with hle | hle
  · have hnone : targetBitsCount - width = 0 := by omega
    rw [hnone, List.replicate_zero, List.nil_append, numberBits_drop hle]
  · have hnone : width - targetBitsCount = 0 := by omega
    have hfront : (numberBits targetBitsCount number).take (targetBitsCount - width) =
        List.replicate (targetBitsCount - width) false := by
      rw [List.eq_replicate_iff]
      refine ⟨?_, (numberBits_fits_iff hfits).mpr hnumber⟩
      rw [List.length_take, numberBits_length]
      omega
    rw [hnone, List.drop_zero, ← hfront, ← numberBits_drop hle, List.take_append_drop]

end BinaryVector

end Mast
