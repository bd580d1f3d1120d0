import Mast.Lib.Fuel
import Mast.Readers.Numbers

/-!
# Bits of concatenated numbers

A concatenated number stands for its numbers one after another, each as wide as its size says and the one without a size as wide as what the others leave. It is converted when every number fits its width, and what is in front of the bits that are asked for is nothing but zeros.
-/

namespace Mast

namespace AST

open BinaryVector Fuel

/-! ### What numbers stand for -/

namespace Number

def isInverted : Number → Bool
  | .basedNumber number => number.isInverted
  | .integerExpr _ isInverted => isInverted

def digitsCount : Number → Nat
  | .basedNumber number => number.digits.bitsCount
  | .integerExpr _ _ => 32

section

variable (evaluated : IntegerExpr → Option UInt32)

def SizeKnown : Number → Prop
  | .basedNumber number => ∀ expr ∈ number.sizeExpr, (evaluated expr).isSome
  | .integerExpr _ _ => True

/-- Its expression has a value, and a decimal number has at most 64 bits. -/
def Known : Number → Prop
  | .basedNumber number => number.digits.Readable ∧ (basedNumber number).SizeKnown evaluated
  | .integerExpr expr _ => (evaluated expr).isSome

def value : Number → Nat
  | .basedNumber number => number.digits.value
  | .integerExpr expr _ => ((evaluated expr).getD 0).toNat

def ownSize : Number → Nat
  | .basedNumber number => ((number.sizeExpr.bind evaluated).getD 0).toNat
  | .integerExpr _ _ => 0

/-- Its size, or what the sized numbers leave. -/
def width (left : Nat) (number : Number) : Nat :=
  if number.isSized then number.ownSize evaluated else left

def bits (left : Nat) (number : Number) : List Bool :=
  (numberBits (number.width evaluated left) (number.value evaluated)).map (xor number.isInverted)

structure Fits (left : Nat) (number : Number) : Prop where
  known : number.Known evaluated
  value_lt : number.value evaluated < 2 ^ number.width evaluated left

end

end Number

namespace ConcatNumber

variable (evaluated : IntegerExpr → Option UInt32)

def sizedTotal (number : ConcatNumber) : Nat :=
  (number.numbers.map (Number.ownSize evaluated)).sum

def bits (number : ConcatNumber) (targetCount : Nat) : List Bool :=
  number.numbers.flatMap (Number.bits evaluated (targetCount - number.sizedTotal evaluated))

/-- The bits are those of the number, with as many zeros in front as are asked for. -/
structure Represents (number : ConcatNumber) (targetCount : Nat) (bits : List Bool) : Prop where
  nonempty : number.numbers ≠ []
  oneUnsized : (number.numbers.filter fun number => !number.isSized).length ≤ 1
  room : number.isFullySized = false → number.sizedTotal evaluated < targetCount
  fits : ∀ n ∈ number.numbers, n.Fits evaluated (targetCount - number.sizedTotal evaluated)
  noneLost : ∀ bit ∈ (number.bits evaluated targetCount).take
    ((number.bits evaluated targetCount).length - targetCount), bit = false
  bits_eq : bits = adjusted targetCount (number.bits evaluated targetCount)

/-- All counts of bits are numbers of 32 bits, and so are the counts of zeros rounded up to bytes. -/
structure Counted (number : ConcatNumber) (targetCount : Nat) : Prop where
  digits : ∀ n ∈ number.numbers, n.digitsCount < uint32Size
  total : number.sizedTotal evaluated < uint32Size
  target : targetCount < uint32Size
  zeros : ∀ n ∈ number.numbers,
    n.width evaluated (targetCount - number.sizedTotal evaluated) + 7 < uint32Size + n.digitsCount
  zerosInFront : number.isFullySized = true →
    targetCount + 7 < uint32Size + number.sizedTotal evaluated

end ConcatNumber

/-! ### One number -/

def IsException (fault : Fault) : Prop := fault ≠ .undefinedBehaviour

theorem delivers_returned {α : Type} {result : Except Fault α} {p : Prop} {a : α}
    (hok : p → result = .ok a) (hthrows : ¬p → Throws result) :
    Delivers IsException (fun _ => returned result) p a := by
  constructor
  · intro hp
    rw [hok hp]
    exact ends_some _
  · intro hnot
    obtain ⟨fault, hfault, rfl⟩ := hthrows hnot
    exact ⟨fault, hfault, ends_some _⟩

theorem delivers_ok {α : Type} {result : Except Fault α} {a : α} (hok : result = .ok a) :
    Delivers IsException (fun _ => returned result) True a :=
  delivers_returned (fun _ => hok) fun hnot => absurd trivial hnot

theorem invertBits_ofBits (isInverted : Bool) (l : List Bool) :
    invertBits isInverted (ofBits l .notFixed) =
      .ok (ofBits (l.map (xor isInverted)) .notFixed) := by
  have hexact := (ofBits_wellFormed l .notFixed).exactBytes
  cases isInverted with
  | true =>
    have hnot : l.map (xor true) = l.map not := List.map_congr_left fun bit _ => Bool.true_xor bit
    rw [invertBits, if_pos rfl, build, toggleBits_run hexact, bits_ofBits, hnot]
    rfl
  | false =>
    have hsame : l.map (xor false) = l :=
      (List.map_congr_left fun bit _ => Bool.false_xor bit).trans (List.map_id l)
    rw [invertBits, if_neg Bool.false_ne_true, hsame]

section

variable {count width value : Nat}

theorem adjustSize_numberBits (hvalue : value < 2 ^ count) (hcount : count < uint32Size)
    (hwidth : width < uint32Size) (hzeros : width + 7 < uint32Size + count)
    (hfits : value < 2 ^ width) :
    build (ofBits (numberBits count value) .notFixed) (adjustSize width) =
      .ok (ofBits (numberBits width value) .notFixed) := by
  have hrun := @adjustSize_run (numberBits count value) width hwidth
    (by rwa [numberBits_length]) (by rwa [numberBits_length])
    (by rw [numberBits_length]; exact (numberBits_fits_iff hvalue).mpr hfits)
  rw [build, hrun, adjusted_numberBits hvalue hfits]

theorem adjustSize_numberBits_throws (hvalue : value < 2 ^ count) (hlarge : ¬value < 2 ^ width) :
    Throws (build (ofBits (numberBits count value) .notFixed) (adjustSize width)) := by
  have hrejects := @adjustSize_rejects (numberBits count value) width (by
    rw [numberBits_length, numberBits_fits_iff hvalue]
    exact hlarge)
  obtain ⟨fault, hfault, hrun⟩ := hrejects
  refine ⟨fault, hfault, ?_⟩
  rw [build, hrun]

/-- What is done to the bits of the digits. -/
theorem sized_delivers (isInverted : Bool) (hvalue : value < 2 ^ count)
    (hcount : count < uint32Size) (hwidth : width < uint32Size)
    (hzeros : width + 7 < uint32Size + count) :
    Delivers IsException (fun _ => returned
        (build (ofBits (numberBits count value) .notFixed) (adjustSize width)) >>=
          fun asBinaryVector => returned (invertBits isInverted asBinaryVector))
      (value < 2 ^ width)
      (ofBits ((numberBits width value).map (xor isInverted)) .notFixed) := by
  have hadjusted := delivers_returned (adjustSize_numberBits hvalue hcount hwidth hzeros)
    (adjustSize_numberBits_throws hvalue)
  refine (hadjusted.bind fun _ => delivers_ok (invertBits_ofBits isInverted _)).of_iff ?_
  exact and_iff_left trivial

end

section

variable {nodes : Nodes}

theorem BasedNumber.asBinaryVector_sized {number : BasedNumber} {sizeExpr : IntegerExpr}
    (hsize : number.sizeExpr = some sizeExpr) (fuel : Nat) :
    number.asBinaryVector nodes fuel 0 =
      returned (createFromString number.digits.text .notFixed .isError) >>= fun asBinaryVector =>
        sizeExpr.evaluate nodes fuel >>= fun size =>
          returned (build asBinaryVector (adjustSize size.toNat)) >>= fun asBinaryVector =>
            returned (invertBits number.isInverted asBinaryVector) := by
  simp [asBinaryVector, size, hsize]

theorem BasedNumber.asBinaryVector_unsized {number : BasedNumber} {targetCount : Nat}
    (htarget : targetCount ≠ 0) (fuel : Nat) :
    number.asBinaryVector nodes fuel targetCount =
      returned (createFromString number.digits.text .notFixed .isError) >>= fun asBinaryVector =>
        returned (build asBinaryVector (adjustSize targetCount)) >>= fun asBinaryVector =>
          returned (invertBits number.isInverted asBinaryVector) := by
  simp [asBinaryVector, htarget]

theorem IntegerExpr.asBinaryVector_eq {expr : IntegerExpr} {targetCount : Nat} (isInverted : Bool)
    (htarget : targetCount ≠ 0) (fuel : Nat) :
    expr.asBinaryVector nodes fuel isInverted targetCount =
      expr.evaluate nodes fuel >>= fun value =>
        returned (build (ofBits (numberBits 32 value.toNat) .notFixed) (adjustSize targetCount)) >>=
          fun asBinaryVector => returned (invertBits isInverted asBinaryVector) := by
  have happend (value : UInt32) : build empty (append32 value.toBitVec 32 .right) =
      .ok (ofBits (numberBits 32 value.toNat) .notFixed) := by
    have hrun := @append32_right 32 (by decide) (by decide) [] .notFixed (by decide) (by decide)
      value.toNat
    have hsame : BitVec.ofNat 32 value.toNat = value.toBitVec :=
      BitVec.eq_of_toNat_eq (Nat.mod_eq_of_lt value.toNat_lt)
    rw [hsame] at hrun
    change (append32 value.toBitVec 32 .right).run empty = _ at hrun
    rw [build, hrun]
    rfl
  rw [asBinaryVector, if_neg htarget]
  simp only [happend]
  rfl

end

section Number

variable {nodes : Nodes} {evaluated : IntegerExpr → Option UInt32} {left : Nat} {n : Number}

/-- What the expressions evaluate to, if they do. -/
def Evaluated (nodes : Nodes) (evaluated : IntegerExpr → Option UInt32)
    (expressions : List IntegerExpr) : Prop :=
  ∀ expr ∈ expressions, Delivers IsException (fun fuel => expr.evaluate nodes fuel)
    (evaluated expr).isSome ((evaluated expr).getD 0)

theorem Evaluated.number {number : ConcatNumber}
    (hevaluated : Evaluated nodes evaluated number.expressions) :
    ∀ n ∈ number.numbers, Evaluated nodes evaluated n.expressions :=
  fun n hn expr hexpr => hevaluated expr (List.mem_flatMap.mpr ⟨n, hn, hexpr⟩)

theorem BasedText.createFromString_delivers {t : BasedText} (hdigits : t.bitsCount < uint32Size) :
    Delivers IsException (fun _ => returned (createFromString t.text .notFixed .isError)) t.Readable
      (ofBits (numberBits t.bitsCount t.value) .notFixed) :=
  delivers_returned (fun hreadable => t.createFromString_eq hreadable hdigits .notFixed .isError)
    fun hunreadable => t.createFromString_throws hunreadable .notFixed .isError

theorem Number.fits_iff : n.Fits evaluated left ↔
    n.Known evaluated ∧ n.value evaluated < 2 ^ n.width evaluated left :=
  ⟨fun hfits => ⟨hfits.known, hfits.value_lt⟩, fun hboth => ⟨hboth.1, hboth.2⟩⟩

theorem Number.asBinaryVector_delivers (hevaluated : Evaluated nodes evaluated n.expressions)
    (hdigits : n.digitsCount < uint32Size) (hwidth : n.width evaluated left < uint32Size)
    (hzeros : n.width evaluated left + 7 < uint32Size + n.digitsCount)
    (hleft : n.isSized = false → left ≠ 0) :
    Delivers IsException
      (fun fuel => n.asBinaryVector nodes fuel (if n.isSized then 0 else left))
      (n.Fits evaluated left) (ofBits (n.bits evaluated left) .notFixed) := by
  cases n with
  | basedNumber number =>
    have hread := BasedText.createFromString_delivers hdigits
    cases hsize : number.sizeExpr with
    | some sizeExpr =>
      have hsized : (Number.basedNumber number).isSized = true := by
        rw [isSized, hsize]
        rfl
      have hexpr := hevaluated sizeExpr (by
        rw [expressions, hsize]
        exact List.mem_singleton_self _)
      have hown : (Number.basedNumber number).width evaluated left =
          ((evaluated sizeExpr).getD 0).toNat := by
        rw [width, if_pos hsized, ownSize, hsize]
        rfl
      have hiff : number.digits.Readable ∧ (evaluated sizeExpr).isSome ∧
          number.digits.value < 2 ^ ((evaluated sizeExpr).getD 0).toNat ↔
            (Number.basedNumber number).Fits evaluated left := by
        rw [Number.fits_iff, hown, Known, SizeKnown, hsize, and_assoc]
        simp only [Option.mem_some_iff, forall_eq']
        rfl
      rw [hown] at hwidth hzeros
      rw [bits, hown, if_pos hsized]
      refine Delivers.congr ?_ fun fuel => number.asBinaryVector_sized hsize fuel
      refine (hread.bind fun hreadable => ?_).of_iff hiff
      have hvalue := number.digits.value_lt hreadable
      exact hexpr.bind fun _ => sized_delivers number.isInverted hvalue hdigits hwidth hzeros
    | none =>
      have hsized : (Number.basedNumber number).isSized = false := by
        rw [isSized, hsize]
        rfl
      have hown : (Number.basedNumber number).width evaluated left = left := by
        rw [width, hsized]
        rfl
      have hiff : number.digits.Readable ∧ number.digits.value < 2 ^ left ↔
          (Number.basedNumber number).Fits evaluated left := by
        rw [Number.fits_iff, hown, Known, SizeKnown, hsize]
        simp only [Option.not_mem_none, false_imp_iff, implies_true, and_true]
        rfl
      rw [hown] at hwidth hzeros
      rw [bits, hown, hsized]
      refine Delivers.congr ?_ fun fuel => number.asBinaryVector_unsized (hleft hsized) fuel
      refine (hread.bind fun hreadable => ?_).of_iff hiff
      have hvalue := number.digits.value_lt hreadable
      exact sized_delivers number.isInverted hvalue hdigits hwidth hzeros
  | integerExpr expr isInverted =>
    have hexpr := hevaluated expr (List.mem_singleton_self _)
    have hvalue := ((evaluated expr).getD 0).toNat_lt
    have hiff : (evaluated expr).isSome ∧ ((evaluated expr).getD 0).toNat < 2 ^ left ↔
        (Number.integerExpr expr isInverted).Fits evaluated left := by
      rw [Number.fits_iff]
      rfl
    refine Delivers.congr ?_ fun fuel => expr.asBinaryVector_eq isInverted (hleft rfl) fuel
    refine (hexpr.bind fun _ => ?_).of_iff hiff
    exact sized_delivers isInverted hvalue hdigits hwidth hzeros

theorem Number.size_delivers (hevaluated : Evaluated nodes evaluated n.expressions)
    (hsized : n.isSized = true) :
    Delivers IsException (fun fuel => n.size nodes fuel) (n.SizeKnown evaluated)
      (n.ownSize evaluated) := by
  cases n with
  | basedNumber number =>
    obtain ⟨sizeExpr, hsize⟩ := Option.isSome_iff_exists.mp hsized
    have hexpr := hevaluated sizeExpr (by
      rw [expressions, hsize]
      exact List.mem_singleton_self _)
    have hiff : (evaluated sizeExpr).isSome ∧ True ↔
        (Number.basedNumber number).SizeKnown evaluated := by
      rw [SizeKnown, hsize]
      simp only [Option.mem_some_iff, forall_eq', and_true]
    have hown : (Number.basedNumber number).ownSize evaluated =
        ((evaluated sizeExpr).getD 0).toNat := by
      rw [ownSize, hsize]
      rfl
    rw [hown]
    have hrun := hexpr.bind (g := fun size _ => pure size.toNat) fun _ => delivers_pure _
    refine (hrun.of_iff hiff).congr fun fuel => ?_
    rw [size, BasedNumber.size, hsize]
  | integerExpr expr isInverted => cases hsized

theorem Number.ownSize_unsized (hunsized : n.isSized = false) : n.ownSize evaluated = 0 := by
  cases n with
  | basedNumber number =>
    have hsize : number.sizeExpr = none :=
      Option.not_isSome_iff_eq_none.mp (Bool.not_eq_true _ ▸ hunsized)
    rw [ownSize, hsize]
    rfl
  | integerExpr expr isInverted => rfl

theorem Number.sizeKnown_unsized (hunsized : n.isSized = false) : n.SizeKnown evaluated := by
  cases n with
  | basedNumber number =>
    have hsize : number.sizeExpr = none :=
      Option.not_isSome_iff_eq_none.mp (Bool.not_eq_true _ ▸ hunsized)
    intro expr hexpr
    rw [hsize] at hexpr
    cases hexpr
  | integerExpr expr isInverted => trivial

theorem Number.sizeKnown (hknown : n.Known evaluated) : n.SizeKnown evaluated := by
  cases n with
  | basedNumber number => exact hknown.2
  | integerExpr expr isInverted => trivial

theorem Number.bits_length : (n.bits evaluated left).length = n.width evaluated left := by
  rw [bits, List.length_map, numberBits_length]

end Number

/-! ### The loops -/

section Loops

variable {nodes : Nodes} {evaluated : IntegerExpr → Option UInt32} {left : Nat}
  {numbers : List Number}

theorem addSizes_delivers
    (hevaluated : ∀ n ∈ numbers, Evaluated nodes evaluated n.expressions) {total : Nat}
    {hasUnsized : Bool}
    (htotal : total + (numbers.map (Number.ownSize evaluated)).sum < uint32Size) :
    Delivers IsException
      (fun fuel => ConcatNumber.addSizes nodes fuel numbers total hasUnsized)
      ((∀ n ∈ numbers, n.SizeKnown evaluated) ∧
        (numbers.filter fun n => !n.isSized).length + hasUnsized.toNat ≤ 1)
      (total + (numbers.map (Number.ownSize evaluated)).sum) := by
  induction numbers generalizing total hasUnsized with
  | nil =>
    refine (delivers_pure total).of_iff ?_
    cases hasUnsized <;> simp
  | cons n rest ih =>
    have hrest := fun m hm => hevaluated m (List.mem_cons_of_mem _ hm)
    rw [List.map_cons, List.sum_cons] at htotal ⊢
    by_cases hsized : n.isSized = true
    · have hmod : (total + n.ownSize evaluated) % uint32Size = total + n.ownSize evaluated :=
        Nat.mod_eq_of_lt (by omega)
      have hnext := @ih hrest (total + n.ownSize evaluated) hasUnsized (by omega)
      rw [← hmod] at hnext
      have hsize := Number.size_delivers (hevaluated n List.mem_cons_self) hsized
      have hrun := hsize.bind (g := fun size fuel =>
        ConcatNumber.addSizes nodes fuel rest ((total + size) % uint32Size) hasUnsized)
        fun _ => hnext
      rw [hmod, Nat.add_assoc] at hrun
      refine (hrun.of_iff ?_).congr fun fuel => ?_
      · rw [List.filter_cons_of_neg (by simp [hsized]), List.forall_mem_cons, and_assoc]
      · rw [ConcatNumber.addSizes, if_pos hsized]
    · have hown : n.ownSize evaluated = 0 := Number.ownSize_unsized (by simpa using hsized)
      have hknown : n.SizeKnown evaluated := Number.sizeKnown_unsized (by simpa using hsized)
      rw [List.filter_cons_of_pos (by simp [hsized]), List.length_cons, List.forall_mem_cons]
      rw [hown, Nat.zero_add] at htotal ⊢
      cases hasUnsized with
      | true =>
        have hthrow := @delivers_throw Fault Nat IsException
          (.runtimeError "Cannot create a vector with more than one unsized number")
          Fault.noConfusion (total + (rest.map (Number.ownSize evaluated)).sum)
        refine (hthrow.of_iff ?_).congr fun fuel => ?_
        · simp only [Bool.toNat_true, false_iff]
          omega
        · rw [ConcatNumber.addSizes, if_neg hsized, if_pos rfl]
      | false =>
        refine ((@ih hrest total true htotal).of_iff ?_).congr fun fuel => ?_
        · simp only [hknown, true_and, Bool.toNat_true, Bool.toNat_false, Nat.add_zero]
        · rw [ConcatNumber.addSizes, if_neg hsized, if_neg Bool.false_ne_true]

/-- The numbers are appended one after another if they fit. -/
theorem appendNumbers_delivers
    (hevaluated : ∀ n ∈ numbers, Evaluated nodes evaluated n.expressions)
    (hdigits : ∀ n ∈ numbers, n.digitsCount < uint32Size)
    (hzeros : ∀ n ∈ numbers, n.width evaluated left + 7 < uint32Size + n.digitsCount)
    (hleft : ∀ n ∈ numbers, n.isSized = false → left ≠ 0) {l : List Bool}
    (hbound : l.length + (numbers.flatMap (Number.bits evaluated left)).length < uint32Size) :
    Delivers IsException
      (fun fuel => ConcatNumber.appendNumbers nodes fuel left numbers (ofBits l .notFixed))
      (∀ n ∈ numbers, n.Fits evaluated left)
      (ofBits (l ++ numbers.flatMap (Number.bits evaluated left)) .notFixed) := by
  induction numbers generalizing l with
  | nil =>
    rw [List.flatMap_nil, List.append_nil]
    exact (delivers_pure (ofBits l .notFixed)).of_iff (by simp)
  | cons n rest ih =>
    rw [List.flatMap_cons, List.length_append] at hbound
    have hwidth := @Number.bits_length evaluated left n
    have happend := append_ofBits (l := l) (p := .notFixed)
      (ofBits_wellFormed (n.bits evaluated left) .notFixed).exactBytes (by decide)
      (by rw [ofBits_usedBits]; omega)
    rw [bits_ofBits] at happend
    have hbuild : build (ofBits l .notFixed) (append (ofBits (n.bits evaluated left) .notFixed)) =
        .ok (ofBits (l ++ n.bits evaluated left) .notFixed) := by
      rw [build, happend]
    have hnumber := Number.asBinaryVector_delivers (hevaluated n List.mem_cons_self)
      (hdigits n List.mem_cons_self) (by omega) (hzeros n List.mem_cons_self)
      (hleft n List.mem_cons_self)
    have hrest := @ih (fun m hm => hevaluated m (List.mem_cons_of_mem _ hm))
      (fun m hm => hdigits m (List.mem_cons_of_mem _ hm))
      (fun m hm => hzeros m (List.mem_cons_of_mem _ hm))
      (fun m hm => hleft m (List.mem_cons_of_mem _ hm)) (l ++ n.bits evaluated left)
      (by rw [List.length_append]; omega)
    have hrun := hnumber.bind (g := fun numberAsVector fuel =>
      returned (build (ofBits l .notFixed) (append numberAsVector)) >>= fun asBinaryVector =>
        ConcatNumber.appendNumbers nodes fuel left rest asBinaryVector)
      fun _ => (delivers_ok hbuild).bind fun _ => hrest
    rw [List.flatMap_cons, ← List.append_assoc]
    refine (hrun.of_iff ?_).congr fun fuel => ?_
    · rw [List.forall_mem_cons, true_and]
    · rw [ConcatNumber.appendNumbers]

end Loops

/-! ### The whole number -/

section ConcatNumber

variable {nodes : Nodes} {evaluated : IntegerExpr → Option UInt32} {number : ConcatNumber}
  {targetCount : Nat}

/-- What is checked before a number without a size gets what is left. -/
structure ConcatNumber.HasRoom (evaluated : IntegerExpr → Option UInt32) (number : ConcatNumber)
    (targetCount : Nat) : Prop where
  known : ∀ n ∈ number.numbers, n.SizeKnown evaluated
  oneUnsized : (number.numbers.filter fun n => !n.isSized).length ≤ 1
  room : number.sizedTotal evaluated < targetCount

theorem ConcatNumber.unsizedSize_delivers
    (hevaluated : Evaluated nodes evaluated number.expressions)
    (htotal : number.sizedTotal evaluated < uint32Size) (hone : 1 ≤ targetCount) :
    Delivers IsException (fun fuel => number.unsizedSize nodes fuel targetCount)
      (number.isFullySized = false → number.HasRoom evaluated targetCount)
      (if number.isFullySized then 0 else targetCount - number.sizedTotal evaluated) := by
  cases hsized : number.isFullySized with
  | true =>
    refine ((delivers_pure 0).of_iff (by simp)).congr fun fuel => ?_
    rw [unsizedSize, if_pos hsized]
  | false =>
    have hsizes := @addSizes_delivers nodes evaluated number.numbers hevaluated.number 0 false
      (by rwa [Nat.zero_add])
    rw [Nat.zero_add] at hsizes
    change Delivers _ _ _ (number.sizedTotal evaluated) at hsizes
    have hrest : Delivers IsException (fun _ =>
        if targetCount > number.sizedTotal evaluated then
          pure (targetCount - number.sizedTotal evaluated)
        else throw noBitsLeft)
        (number.sizedTotal evaluated < targetCount)
        (targetCount - number.sizedTotal evaluated) := by
      by_cases hroom : number.sizedTotal evaluated < targetCount
      · simp only [gt_iff_lt, hroom, if_true]
        exact delivers_pure _
      · simp only [gt_iff_lt, hroom, if_false]
        exact delivers_throw Fault.noConfusion _
    have hrun := hsizes.bind (g := fun sizedTotalSize _ =>
      if targetCount > sizedTotalSize then pure (targetCount - sizedTotalSize)
      else throw noBitsLeft) fun _ => hrest
    refine (hrun.of_iff ?_).congr fun fuel => ?_
    · constructor
      · intro hall _
        exact ⟨hall.1.1, hall.1.2, hall.2⟩
      · intro hroom
        obtain ⟨hknown, hfew, hless⟩ := hroom rfl
        exact ⟨⟨hknown, hfew⟩, hless⟩
    · rw [unsizedSize, hsized, if_neg Bool.false_ne_true, if_neg (by omega)]

private theorem ConcatNumber.bits_length_eq (number : ConcatNumber) (targetCount : Nat) :
    (number.bits evaluated targetCount).length = number.sizedTotal evaluated +
      (number.numbers.filter fun n => !n.isSized).length *
        (targetCount - number.sizedTotal evaluated) := by
  rw [bits, sizedTotal]
  generalize targetCount - (number.numbers.map (Number.ownSize evaluated)).sum = left
  induction number.numbers with
  | nil => simp
  | cons n rest ih =>
    rw [List.flatMap_cons, List.length_append, ih, List.map_cons, List.sum_cons,
      Number.bits_length, Number.width]
    cases hsized : n.isSized with
    | true =>
      rw [List.filter_cons_of_neg (by simp [hsized]), if_pos rfl]
      omega
    | false =>
      rw [List.filter_cons_of_pos (by simp [hsized]), if_neg Bool.false_ne_true,
        Number.ownSize_unsized hsized, List.length_cons, Nat.succ_mul]
      omega

theorem ConcatNumber.isFullySized_iff (hne : number.numbers ≠ []) :
    number.isFullySized = true ↔ number.numbers.filter (fun n => !n.isSized) = [] := by
  have hempty : number.numbers.isEmpty = false := List.isEmpty_eq_false_iff.mpr hne
  rw [isFullySized, hempty, Bool.not_false, Bool.and_true, List.all_eq_true,
    List.filter_eq_nil_iff]
  simp

/-- The sizes make up the bits, and a number without a size fills them up to what is asked for. -/
theorem ConcatNumber.bits_length (hne : number.numbers ≠ [])
    (hroom : number.isFullySized = false → number.HasRoom evaluated targetCount) :
    (number.bits evaluated targetCount).length =
      if number.isFullySized then number.sizedTotal evaluated else targetCount := by
  rw [bits_length_eq]
  cases hsized : number.isFullySized with
  | true =>
    rw [(isFullySized_iff hne).mp hsized, List.length_nil, Nat.zero_mul]
    rfl
  | false =>
    obtain ⟨-, hfew, hless⟩ := hroom hsized
    have hsome : (number.numbers.filter fun n => !n.isSized).length ≠ 0 := by
      intro hnone
      have hfully := (isFullySized_iff hne).mpr (List.eq_nil_of_length_eq_zero hnone)
      rw [hsized] at hfully
      cases hfully
    have hcount : (number.numbers.filter fun n => !n.isSized).length = 1 := by omega
    rw [hcount, Nat.one_mul, if_neg Bool.false_ne_true]
    omega

theorem ConcatNumber.bits_counted (hne : number.numbers ≠ [])
    (hcounted : number.Counted evaluated targetCount)
    (hroom : number.isFullySized = false → number.HasRoom evaluated targetCount) :
    (number.bits evaluated targetCount).length < uint32Size ∧
      targetCount + 7 < uint32Size + (number.bits evaluated targetCount).length := by
  have hfew : 7 < uint32Size := by decide
  have htarget := hcounted.target
  rw [bits_length hne hroom]
  cases hsized : number.isFullySized with
  | true => exact ⟨hcounted.total, hcounted.zerosInFront hsized⟩
  | false =>
    rw [if_neg Bool.false_ne_true]
    omega

theorem ConcatNumber.isFullySized_of_unsized (number : ConcatNumber) {n : Number}
    (hn : n ∈ number.numbers) (hunsized : n.isSized = false) : number.isFullySized = false := by
  by_contra hfully
  rw [Bool.not_eq_false, isFullySized, Bool.and_eq_true, List.all_eq_true] at hfully
  have hsized := hfully.1 n hn
  rw [hunsized] at hsized
  cases hsized

/-- The widths do not depend on what is left if there is no number without a size. -/
theorem ConcatNumber.width_left {n : Number} (hn : n ∈ number.numbers) :
    n.width evaluated
        (if number.isFullySized then 0 else targetCount - number.sizedTotal evaluated) =
      n.width evaluated (targetCount - number.sizedTotal evaluated) := by
  rw [Number.width, Number.width]
  by_cases hsized : n.isSized = true
  · rw [if_pos hsized, if_pos hsized]
  · rw [if_neg hsized, if_neg hsized,
      number.isFullySized_of_unsized hn (by simpa using hsized), if_neg Bool.false_ne_true]

/-- The adjustment of the whole removes nothing but zeros. -/
theorem adjusted_delivers {l : List Bool} (htarget : targetCount < uint32Size)
    (hlength : l.length < uint32Size) (hzeros : targetCount + 7 < uint32Size + l.length) :
    Delivers IsException
      (fun _ => returned (build (ofBits l .notFixed) (adjustSize targetCount)))
      (∀ bit ∈ l.take (l.length - targetCount), bit = false)
      (ofBits (adjusted targetCount l) .notFixed) := by
  apply delivers_returned
  · intro hnone
    rw [build, adjustSize_run htarget hlength hzeros hnone]
  · intro hlost
    obtain ⟨fault, hfault, hrun⟩ := adjustSize_rejects hlost
    exact ⟨fault, hfault, by rw [build, hrun]⟩

theorem ConcatNumber.asBinaryVector_delivers
    (hevaluated : Evaluated nodes evaluated number.expressions)
    (hcounted : number.Counted evaluated targetCount) (hone : 1 ≤ targetCount) :
    Delivers IsException (fun fuel => number.asBinaryVector nodes fuel targetCount)
      (∃ bits, number.Represents evaluated targetCount bits)
      (ofBits (adjusted targetCount (number.bits evaluated targetCount)) .notFixed) := by
  by_cases hne : number.numbers = []
  · have hthrow := @delivers_throw Fault BinaryVector IsException
      (.runtimeError "Cannot create a vector from \"empty\" concatenated number")
      Fault.noConfusion
      (ofBits (adjusted targetCount (number.bits evaluated targetCount)) .notFixed)
    refine (hthrow.of_iff ?_).congr fun fuel => ?_
    · rw [false_iff]
      intro hrepresents
      obtain ⟨bits, hrepresents⟩ := hrepresents
      exact hrepresents.nonempty hne
    · rw [asBinaryVector, if_pos hne]
  · have hsame : number.numbers.flatMap (Number.bits evaluated
        (if number.isFullySized then 0 else targetCount - number.sizedTotal evaluated)) =
          number.bits evaluated targetCount := by
      apply List.flatMap_congr
      intro n hn
      rw [Number.bits, width_left hn, Number.bits]
    have hfits (n : Number) (hn : n ∈ number.numbers) :
        n.Fits evaluated (if number.isFullySized then 0
          else targetCount - number.sizedTotal evaluated) ↔
            n.Fits evaluated (targetCount - number.sizedTotal evaluated) := by
      rw [Number.fits_iff, Number.fits_iff, width_left hn]
    have hsize := unsizedSize_delivers hevaluated hcounted.total hone
    have hleft (hroom : number.isFullySized = false → number.HasRoom evaluated targetCount) :
        ∀ n ∈ number.numbers, n.isSized = false → (if number.isFullySized then 0
          else targetCount - number.sizedTotal evaluated) ≠ 0 := by
      intro n hn hunsized
      have hsized := number.isFullySized_of_unsized hn hunsized
      have hless := (hroom hsized).room
      rw [hsized, if_neg Bool.false_ne_true]
      omega
    have happend (hroom : number.isFullySized = false → number.HasRoom evaluated targetCount) :=
      @appendNumbers_delivers nodes evaluated _ number.numbers hevaluated.number hcounted.digits
        (fun n hn => (width_left hn).symm ▸ hcounted.zeros n hn) (hleft hroom) []
        (by rw [hsame, List.length_nil, Nat.zero_add]; exact (bits_counted hne hcounted hroom).1)
    rw [List.nil_append, hsame] at happend
    have hrun := hsize.bind (g := fun unsizedSize fuel =>
      appendNumbers nodes fuel unsizedSize number.numbers (ofBits [] .notFixed) >>=
        fun asBinaryVector => returned (build asBinaryVector (adjustSize targetCount)))
      fun hroom => (happend hroom).bind fun _ => adjusted_delivers hcounted.target
        (bits_counted hne hcounted hroom).1 (bits_counted hne hcounted hroom).2
    refine (hrun.of_iff ?_).congr fun fuel => ?_
    · constructor
      · intro hall
        obtain ⟨hroom, hfit, hnone⟩ := hall
        refine ⟨_, hne, ?_, fun hsized => (hroom hsized).room,
          fun n hn => (hfits n hn).mp (hfit n hn), hnone, rfl⟩
        cases hsized : number.isFullySized with
        | true =>
          rw [(isFullySized_iff hne).mp hsized]
          exact Nat.zero_le 1
        | false => exact (hroom hsized).oneUnsized
      · intro hrepresents
        obtain ⟨bits, -, hfew, hroom, hfit, hnone, -⟩ := hrepresents
        exact ⟨fun hsized => ⟨fun n hn => Number.sizeKnown (hfit n hn).known, hfew, hroom hsized⟩,
          fun n hn => (hfits n hn).mpr (hfit n hn), hnone⟩
    · rw [asBinaryVector, if_neg hne]
      simp only [ne_eq, Nat.one_le_iff_ne_zero.mp hone, not_false_iff, if_true]
      rfl

/-- The conversion gives the bits of the number if it has that many, and throws otherwise. -/
theorem ConcatNumber.asBinaryVector_represents (number : ConcatNumber)
    (hevaluated : Evaluated nodes evaluated number.expressions)
    (hcounted : number.Counted evaluated targetCount) (hone : 1 ≤ targetCount) :
    ∃ result, Ends (fun fuel => (number.asBinaryVector nodes fuel targetCount).run) result ∧
      ((∃ bits, number.Represents evaluated targetCount bits ∧ bits.length = targetCount ∧
          result = .ok (ofBits bits .notFixed)) ∨
        (¬∃ bits, number.Represents evaluated targetCount bits) ∧ Throws result) := by
  have hdelivers := asBinaryVector_delivers hevaluated hcounted hone
  obtain ⟨result, hends, hresult⟩ := hdelivers.ends
  refine ⟨result, hends, ?_⟩
  rcases hresult with ⟨hrepresents, hok⟩ | ⟨hnot, fault, hfault, herror⟩
  · obtain ⟨bits, hrepresents⟩ := hrepresents
    have hbits := hrepresents.bits_eq
    refine .inl ⟨bits, hrepresents, ?_, ?_⟩
    · rw [hbits, adjusted_length]
    · rw [hok, hbits]
  · exact .inr ⟨hnot, fault, hfault, herror⟩

end ConcatNumber

/-- `4'b0001`. -/
def fourBits : ConcatNumber := .sizedBinary false [false, false, true]

def literalValue : IntegerExpr → Option UInt32
  | .integerLiteral value => some value
  | _ => none

theorem evaluated_literals {nodes : Nodes} {expressions : List IntegerExpr}
    (hliterals : ∀ expr ∈ expressions, (literalValue expr).isSome) :
    Evaluated nodes literalValue expressions := by
  intro expr hexpr
  have hliteral := hliterals expr hexpr
  cases expr with
  | integerLiteral value =>
    refine ⟨fun _ => ⟨1, fun fuel hfuel => ?_⟩, fun hnot => absurd hliteral hnot⟩
    obtain ⟨fuel, rfl⟩ := Nat.exists_eq_add_of_le' hfuel
    rfl
  | integerBinaryExpr kind left right => cases hliteral
  | parenthesizedExpr operand => cases hliteral
  | integerExprRef node => cases hliteral

theorem fourBits_counted : fourBits.Counted literalValue 3 where
  digits := by decide
  total := by decide
  target := by decide
  zeros n hn := by
    obtain rfl := List.mem_singleton.mp hn
    exact Nat.lt_of_lt_of_le (by decide) (Nat.le_add_right _ _)
  zerosInFront _ := Nat.lt_of_lt_of_le (by decide) (Nat.le_add_right _ _)

theorem fourBits_represents : fourBits.Represents literalValue 3 [false, false, true] where
  nonempty := by decide
  oneUnsized := by decide
  room := by decide
  fits n hn := by
    obtain rfl := List.mem_singleton.mp hn
    refine ⟨⟨by decide, fun expr hexpr => ?_⟩, by decide⟩
    cases hexpr
    rfl
  noneLost := by decide
  bits_eq := by decide

theorem ConcatNumber.asBinaryVector_represents_three :
    ∃ result, Ends (fun fuel => (fourBits.asBinaryVector [] fuel 3).run) result ∧
      ((∃ bits, fourBits.Represents literalValue 3 bits ∧ bits.length = 3 ∧
          result = .ok (ofBits bits .notFixed)) ∨
        (¬∃ bits, fourBits.Represents literalValue 3 bits) ∧ Throws result) :=
  fourBits.asBinaryVector_represents (evaluated_literals (by decide)) fourBits_counted (by decide)

/-- Three bits of a number of four: it does not throw, and the first zero is removed. -/
theorem ConcatNumber.asBinaryVector_truncates :
    fourBits.isFullySized = true ∧ 3 < fourBits.sizedTotal literalValue ∧
      Ends (fun fuel => (fourBits.asBinaryVector [] fuel 3).run)
        (.ok (ofBits [false, false, true] .notFixed)) ∧
      ¬∃ zeros, [false, false, true] =
        List.replicate zeros false ++ fourBits.bits literalValue 3 := by
  refine ⟨by decide, by decide, ?_, ?_⟩
  · exact (asBinaryVector_delivers (evaluated_literals (by decide)) fourBits_counted
      (by decide)).gives ⟨_, fourBits_represents⟩
  · intro hfull
    obtain ⟨zeros, hbits⟩ := hfull
    have hlength := congrArg List.length hbits
    have hfour : (fourBits.bits literalValue 3).length = 4 := by decide
    rw [List.length_append, List.length_replicate, hfour, List.length_cons, List.length_cons,
      List.length_singleton] at hlength
    omega

end AST

end Mast
