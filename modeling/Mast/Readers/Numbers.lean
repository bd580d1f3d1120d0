import Mast.BinaryVector.BasedTexts
import Mast.Readers.IntegerExpr

/-!
# Concatenated numbers

The value of a network element is a list of numbers, each with digits in some base and perhaps a size, or an integer expression; at most one of them has no size of its own. `AsBinaryVector` adjusts each number to its size on the left, complements it if it is inverted, appends it, and adjusts the whole to the bits that are asked for.
-/

namespace Mast

namespace AST

open BinaryVector Fuel

/-- `AST_BasedNumber`. -/
structure BasedNumber where
  digits : BasedText
  sizeExpr : Option IntegerExpr
  isInverted : Bool

/-- An `AST_Number`. -/
inductive Number
  | basedNumber (number : BasedNumber)
  | integerExpr (expr : IntegerExpr) (isInverted : Bool)

/-- `AST_ConcatNumber`. -/
structure ConcatNumber where
  numbers : List Number

def returned {α : Type} (result : Except Fault α) : ExceptT Fault Option α :=
  (some result : Option (Except Fault α))

/-- How the conversion of a number ends. -/
def invertBits (isInverted : Bool) (asBinaryVector : BinaryVector) : Except Fault BinaryVector :=
  if isInverted then build asBinaryVector toggleBits else .ok asBinaryVector

section

variable (nodes : Nodes) (fuel : Nat)

namespace BasedNumber

def size (number : BasedNumber) : ExceptT Fault Option Nat :=
  match number.sizeExpr with
  | none => throw (.runtimeError "Cannot provide size when the number is not sized")
  | some sizeExpr => do
    let size ← sizeExpr.evaluate nodes fuel
    pure size.toNat

/-- `AsBinaryVector`; a count of 0 asks for no particular size. -/
def asBinaryVector (number : BasedNumber) (targetCount : Nat) :
    ExceptT Fault Option BinaryVector := do
  let asBinaryVector ← returned (createFromString number.digits.text .notFixed .isError)
  if targetCount ≠ 0 ∨ number.sizeExpr.isSome then
    let targetBitsCount ← if targetCount ≠ 0 then pure targetCount else number.size nodes fuel
    let asBinaryVector ← returned (build asBinaryVector (adjustSize targetBitsCount))
    returned (invertBits number.isInverted asBinaryVector)
  else returned (invertBits number.isInverted asBinaryVector)

end BasedNumber

/-- `AST_IntegerExpr::AsBinaryVector`. -/
def IntegerExpr.asBinaryVector (expr : IntegerExpr) (isInverted : Bool) (targetCount : Nat) :
    ExceptT Fault Option BinaryVector := do
  if targetCount = 0 then
    throw (.invalidArgument
      "Cannot convert to BinaryVector an integer expression without a size")
  else
    let value ← expr.evaluate nodes fuel
    let asBinaryVector ← returned (build empty (append32 value.toBitVec 32 .right))
    let asBinaryVector ← returned (build asBinaryVector (adjustSize targetCount))
    returned (invertBits isInverted asBinaryVector)

namespace Number

def isSized : Number → Bool
  | .basedNumber number => number.sizeExpr.isSome
  | .integerExpr _ _ => false

def size : Number → ExceptT Fault Option Nat
  | .basedNumber number => number.size nodes fuel
  | .integerExpr _ _ => throw (.runtimeError
      "Integer expression is never sized ==> one cannot request its size")

def asBinaryVector (targetCount : Nat) : Number → ExceptT Fault Option BinaryVector
  | .basedNumber number => number.asBinaryVector nodes fuel targetCount
  | .integerExpr expr isInverted => expr.asBinaryVector nodes fuel isInverted targetCount

end Number

namespace ConcatNumber

def isFullySized (number : ConcatNumber) : Bool :=
  number.numbers.all Number.isSized && !number.numbers.isEmpty

def addSizes : List Number → Nat → Bool → ExceptT Fault Option Nat
  | [], sizedTotalSize, _ => pure sizedTotalSize
  | number :: rest, sizedTotalSize, hasUnsized =>
    if number.isSized then do
      let size ← number.size nodes fuel
      addSizes rest ((sizedTotalSize + size) % uint32Size) hasUnsized
    else if hasUnsized then
      throw (.runtimeError "Cannot create a vector with more than one unsized number")
    else addSizes rest sizedTotalSize true

def noBitsLeft : Fault :=
  .invalidArgument ("Cannot create a vector with one unsized number and a target bits count " ++
    "less than total of sized numbers")

/-- The size of the number that has none of its own. -/
def unsizedSize (number : ConcatNumber) (targetCount : Nat) : ExceptT Fault Option Nat :=
  if number.isFullySized then pure 0
  else if targetCount = 0 then
    throw (.invalidArgument "A valid size is required when one concatenated number is not sized")
  else do
    let sizedTotalSize ← addSizes nodes fuel number.numbers 0 false
    if targetCount > sizedTotalSize then pure (targetCount - sizedTotalSize)
    else throw noBitsLeft

def appendNumbers (unsizedSize : Nat) :
    List Number → BinaryVector → ExceptT Fault Option BinaryVector
  | [], asBinaryVector => pure asBinaryVector
  | number :: rest, asBinaryVector => do
    let numberSize := if number.isSized then 0 else unsizedSize
    let numberAsVector ← number.asBinaryVector nodes fuel numberSize
    let asBinaryVector ← returned (build asBinaryVector (append numberAsVector))
    appendNumbers unsizedSize rest asBinaryVector

def asBinaryVector (number : ConcatNumber) (targetCount : Nat) :
    ExceptT Fault Option BinaryVector := do
  if number.numbers = [] then
    throw (.runtimeError "Cannot create a vector from \"empty\" concatenated number")
  else
    let unsizedSize ← number.unsizedSize nodes fuel targetCount
    let asBinaryVector ← appendNumbers nodes fuel unsizedSize number.numbers empty
    if targetCount ≠ 0 then returned (build asBinaryVector (adjustSize targetCount))
    else pure asBinaryVector

end ConcatNumber

/-! ### Text -/

def BasedNumber.asText (number : BasedNumber) : ExceptT Fault Option Text := do
  let size ← match number.sizeExpr with
    | none => pure []
    | some sizeExpr => sizeExpr.asTextIn nodes fuel
  pure ((if number.isInverted then ['~'] else []) ++ size ++ number.digits.text)

/-- The expressions whose text shows that they are inverted. -/
def IntegerExpr.showsInversion : IntegerExpr → Bool
  | .integerLiteral _ => true
  | .integerExprRef node => (nodes[node]?.bind (·.parameterRef)).isSome
  | _ => false

def Number.asText : Number → ExceptT Fault Option Text
  | .basedNumber number => number.asText nodes fuel
  | .integerExpr expr isInverted => do
    let asText ← expr.asTextIn nodes fuel
    pure (if isInverted && expr.showsInversion nodes then '~' :: asText else asText)

/-- The loop of `AsText`; what has been appended so far decides about the comma. -/
def ConcatNumber.appendTexts : List Number → Text → ExceptT Fault Option Text
  | [], asText => pure asText
  | number :: rest, asText => do
    let numberAsText ← number.asText nodes fuel
    ConcatNumber.appendTexts rest (asText ++ ", ".toList ++ numberAsText)

def ConcatNumber.asText (number : ConcatNumber) : ExceptT Fault Option Text :=
  match number.numbers with
  | [] => pure []
  | first :: rest => do
    let asText ← first.asText nodes fuel
    ConcatNumber.appendTexts nodes fuel rest asText

end

/-! ### Numbers that can be evaluated -/

def Number.expressions : Number → List IntegerExpr
  | .basedNumber number => number.sizeExpr.toList
  | .integerExpr expr _ => [expr]

def ConcatNumber.expressions (number : ConcatNumber) : List IntegerExpr :=
  number.numbers.flatMap Number.expressions

/-- A number of bits as it is written in ICL with its size, such as `2'b01`. -/
def ConcatNumber.sizedBinary (first : Bool) (rest : List Bool) : ConcatNumber where
  numbers := [.basedNumber
    { digits :=
        { base := .binary
          uppercase := false
          blanks := []
          first := if first then '1' else '0'
          rest := rest.map fun bit => if bit then '1' else '0'
          blanks_valid := fun c hc => absurd hc List.not_mem_nil
          first_valid := by cases first <;> rfl
          rest_valid := fun c hc => by
            obtain ⟨bit, -, rfl⟩ := List.mem_map.mp hc
            cases bit <;> exact .inr rfl }
      sizeExpr := some (.integerLiteral (UInt32.ofNat (rest.length + 1)))
      isInverted := false }]

/-- An `AST_ConcatNumber` of a network whose references have been resolved, with enough fuel to follow them. -/
structure ResolvedNumber where
  number : ConcatNumber
  nodes : Nodes
  fuel : Nat
  evaluates : ∀ expr ∈ number.expressions, (expr.evaluate nodes fuel).run.isSome = true
  shows : ∀ expr ∈ number.expressions, (expr.asTextIn nodes fuel).run.isSome = true

section

variable {nodes : Nodes} {fuel : Nat}

theorem isSome_returned {α : Type} (result : Except Fault α) :
    (returned result).run.isSome = true :=
  rfl

theorem BasedNumber.size_isSome {number : BasedNumber}
    (hevaluates : ∀ expr ∈ number.sizeExpr, (expr.evaluate nodes fuel).run.isSome = true) :
    (number.size nodes fuel).run.isSome = true := by
  rw [size]
  cases hexpr : number.sizeExpr with
  | none => rfl
  | some expr => exact isSome_run_bind (hevaluates expr hexpr) fun _ => rfl

section

variable {number : Number}
  (hevaluates : ∀ expr ∈ number.expressions, (expr.evaluate nodes fuel).run.isSome = true)
include hevaluates

theorem Number.size_isSome : (number.size nodes fuel).run.isSome = true := by
  cases number with
  | basedNumber number =>
    exact BasedNumber.size_isSome fun expr hexpr => hevaluates expr (Option.mem_toList.mpr hexpr)
  | integerExpr expr isInverted => rfl

theorem Number.asBinaryVector_isSome (targetCount : Nat) :
    (number.asBinaryVector nodes fuel targetCount).run.isSome = true := by
  cases number with
  | basedNumber number =>
    have hsize : (number.size nodes fuel).run.isSome = true := Number.size_isSome hevaluates
    have hadjust (v : BinaryVector) (count : Nat) :
        (returned (build v (adjustSize count)) >>= fun v =>
          returned (invertBits number.isInverted v)).run.isSome = true :=
      isSome_run_bind (isSome_returned _) fun v => isSome_returned _
    refine isSome_run_bind (isSome_returned _) fun v => ?_
    split
    · dsimp only
      split
      · exact isSome_run_bind (x := pure targetCount) rfl (hadjust v)
      · exact isSome_run_bind hsize (hadjust v)
    · exact isSome_returned _
  | integerExpr expr isInverted =>
    rw [asBinaryVector, IntegerExpr.asBinaryVector]
    split
    · rfl
    · exact isSome_run_bind (hevaluates expr (List.mem_singleton_self _)) fun value =>
        isSome_run_bind (isSome_returned _) fun v => isSome_run_bind (isSome_returned _) fun v =>
          isSome_returned _

end

theorem Number.asText_isSome {number : Number}
    (hshows : ∀ expr ∈ number.expressions, (expr.asTextIn nodes fuel).run.isSome = true) :
    (number.asText nodes fuel).run.isSome = true := by
  cases number with
  | basedNumber number =>
    rw [asText, BasedNumber.asText]
    cases hexpr : number.sizeExpr with
    | none => rfl
    | some expr =>
      exact isSome_run_bind (hshows expr (Option.mem_toList.mpr hexpr)) fun _ => rfl
  | integerExpr expr isInverted =>
    exact isSome_run_bind (hshows expr (List.mem_singleton_self _)) fun _ => rfl

theorem ConcatNumber.appendTexts_isSome {numbers : List Number}
    (hshows : ∀ number ∈ numbers, (number.asText nodes fuel).run.isSome = true) (asText : Text) :
    (appendTexts nodes fuel numbers asText).run.isSome = true := by
  induction numbers generalizing asText with
  | nil => rfl
  | cons number rest ih =>
    obtain ⟨hnumber, hrest⟩ := List.forall_mem_cons.mp hshows
    rw [appendTexts]
    exact isSome_run_bind hnumber fun _ => ih hrest _

section

variable {numbers : List Number}
  (hevaluates : ∀ number ∈ numbers, ∀ expr ∈ number.expressions,
    (expr.evaluate nodes fuel).run.isSome = true)
include hevaluates

theorem ConcatNumber.addSizes_isSome (total : Nat) (hasUnsized : Bool) :
    (addSizes nodes fuel numbers total hasUnsized).run.isSome = true := by
  induction numbers generalizing total hasUnsized with
  | nil => rfl
  | cons number rest ih =>
    obtain ⟨hnumber, hrest⟩ := List.forall_mem_cons.mp hevaluates
    rw [addSizes]
    split
    · exact isSome_run_bind (Number.size_isSome hnumber) fun _ => ih hrest _ _
    · split
      · rfl
      · exact ih hrest _ _

theorem ConcatNumber.appendNumbers_isSome (unsizedSize : Nat) (v : BinaryVector) :
    (appendNumbers nodes fuel unsizedSize numbers v).run.isSome = true := by
  induction numbers generalizing v with
  | nil => rfl
  | cons number rest ih =>
    obtain ⟨hnumber, hrest⟩ := List.forall_mem_cons.mp hevaluates
    exact isSome_run_bind (Number.asBinaryVector_isSome hnumber _) fun _ =>
      isSome_run_bind (isSome_returned _) fun _ => ih hrest _

end

end

namespace ResolvedNumber

variable (n : ResolvedNumber)

theorem mem_expressions (number : Number) (hnumber : number ∈ n.number.numbers) :
    ∀ expr ∈ number.expressions, expr ∈ n.number.expressions :=
  fun _ hexpr => List.mem_flatMap.mpr ⟨number, hnumber, hexpr⟩

theorem asBinaryVector_isSome (targetCount : Nat) :
    (n.number.asBinaryVector n.nodes n.fuel targetCount).run.isSome = true := by
  have hevaluates : ∀ number ∈ n.number.numbers, ∀ expr ∈ number.expressions,
      (expr.evaluate n.nodes n.fuel).run.isSome = true :=
    fun number hnumber expr hexpr => n.evaluates expr (n.mem_expressions number hnumber expr hexpr)
  rw [ConcatNumber.asBinaryVector]
  split
  · rfl
  refine isSome_run_bind ?_ fun size =>
    isSome_run_bind (ConcatNumber.appendNumbers_isSome hevaluates _ _) fun v => ?_
  · rw [ConcatNumber.unsizedSize]
    split
    · rfl
    split
    · rfl
    refine isSome_run_bind (ConcatNumber.addSizes_isSome hevaluates _ _) fun total => ?_
    split
    · rfl
    · rfl
  · split
    · exact isSome_returned _
    · rfl

theorem asText_isSome : (n.number.asText n.nodes n.fuel).run.isSome = true := by
  have hshows : ∀ number ∈ n.number.numbers, (number.asText n.nodes n.fuel).run.isSome = true :=
    fun number hnumber => Number.asText_isSome fun expr hexpr =>
      n.shows expr (n.mem_expressions number hnumber expr hexpr)
  rw [ConcatNumber.asText]
  cases hnumbers : n.number.numbers with
  | nil => rfl
  | cons first rest =>
    rw [hnumbers] at hshows
    obtain ⟨hfirst, hrest⟩ := List.forall_mem_cons.mp hshows
    exact isSome_run_bind hfirst fun _ => ConcatNumber.appendTexts_isSome hrest _

def asBinaryVector (targetCount : Nat) : Except Fault BinaryVector :=
  (n.number.asBinaryVector n.nodes n.fuel targetCount).run.get (n.asBinaryVector_isSome targetCount)

def asText : Except Fault Text :=
  (n.number.asText n.nodes n.fuel).run.get n.asText_isSome

/-- `ConcatNumber.sizedBinary`, which has no references. -/
def sizedBinary (first : Bool) (rest : List Bool) : ResolvedNumber where
  number := .sizedBinary first rest
  nodes := []
  fuel := 1
  evaluates expr hexpr := by
    obtain rfl := List.mem_singleton.mp hexpr
    rfl
  shows expr hexpr := by
    obtain rfl := List.mem_singleton.mp hexpr
    rfl

end ResolvedNumber

/-! ### Widths -/

theorem ConcatNumber.appendNumbers_covered {nodes : Nodes} {fuel unsizedSize : Nat}
    {numbers : List Number} {v v' : BinaryVector} (hv : v.Covered)
    (hrun : (appendNumbers nodes fuel unsizedSize numbers v).run = some (.ok v')) : v'.Covered := by
  induction numbers generalizing v with
  | nil =>
    cases hrun
    exact hv
  | cons number rest ih =>
    rw [appendNumbers, run_bind_eq_some_iff] at hrun
    rcases hrun with ⟨e, -, hresult⟩ | ⟨numberAsVector, -, hrun⟩
    · cases hresult
    rw [run_bind_eq_some_iff] at hrun
    rcases hrun with ⟨e, -, hresult⟩ | ⟨v₁, happend, hrun⟩
    · cases hresult
    exact ih ((append_makes hv numberAsVector).build (Option.some.inj happend)).1 hrun

theorem ConcatNumber.asBinaryVector_width {nodes : Nodes} {fuel targetCount : Nat}
    {number : ConcatNumber} {v : BinaryVector} (htarget : targetCount < uint32Size)
    (hrun : (number.asBinaryVector nodes fuel targetCount).run = some (.ok v)) :
    v.Covered ∧ (targetCount ≠ 0 → v.usedBits = targetCount) := by
  rw [asBinaryVector] at hrun
  split at hrun
  · cases hrun
  rw [run_bind_eq_some_iff] at hrun
  rcases hrun with ⟨e, -, hresult⟩ | ⟨size, -, hrun⟩
  · cases hresult
  rw [run_bind_eq_some_iff] at hrun
  rcases hrun with ⟨e, -, hresult⟩ | ⟨v₁, happend, hrun⟩
  · cases hresult
  have hv₁ := appendNumbers_covered (ofBits_covered (l := []) (by decide) .notFixed) happend
  split at hrun
  · obtain ⟨hcovered, hused⟩ := (adjustSize_makes hv₁ htarget).build (Option.some.inj hrun)
    exact ⟨hcovered, fun _ => hused⟩
  · rename_i hnone
    cases hrun
    exact ⟨hv₁, fun hsome => absurd hsome hnone⟩

theorem ResolvedNumber.asBinaryVector_width {n : ResolvedNumber} {targetCount : Nat}
    {v : BinaryVector} (htarget : targetCount < uint32Size)
    (hv : n.asBinaryVector targetCount = .ok v) :
    v.bits.length < uint32Size ∧ (targetCount ≠ 0 → v.bits.length = targetCount) := by
  have hrun : (n.number.asBinaryVector n.nodes n.fuel targetCount).run = some (.ok v) :=
    Option.eq_some_of_isSome (n.asBinaryVector_isSome targetCount) |>.trans (congrArg some hv)
  obtain ⟨hcovered, hwidth⟩ := ConcatNumber.asBinaryVector_width htarget hrun
  rw [hcovered.bits_length]
  exact ⟨hcovered.usedBits_lt, hwidth⟩

end AST

end Mast
