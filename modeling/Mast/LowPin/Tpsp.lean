import Mast.BinaryVector.AppendLaws
import Mast.BinaryVector.Parse
import Mast.DataCycle.Translator
import Mast.Lib.TapController

/-!
# The three-pin protocol

`TPSP_TranslatorProtocol` turns a scan request into `TPSP_CYCLE` requests, one for each cycle of the test clock: each has the levels of TDI and TMS and is answered by the level of TDO. Every request is pushed and then its answer is taken from the queue, so that the callback and what answers it take turns.
-/

namespace Mast

namespace Tpsp

open AccessInterfaceTranslator (noMorePendingId)
open BinaryVector BitPacking TapController

/-- What the protocol reads and sets of an `RVFRequest`. -/
structure RVFRequest where
  callbackId : String
  toSutVector : BinaryVector

/-- What answers the requests, and the requests pushed so far. -/
structure Session (σ : Type) where
  upper : σ
  pushed : List RVFRequest

abbrev Callback (σ : Type) := EStateM Fault (Session σ)

section Callback

variable {σ : Type} (respond : σ → RVFRequest → BinaryVector × σ)

def pushRequest (request : RVFRequest) : Callback σ Unit :=
  modify fun session => { session with pushed := session.pushed ++ [request] }

/-- `PushRequest`, and the `PopfromSut` that follows it. -/
def exchange (request : RVFRequest) : Callback σ BinaryVector := do
  pushRequest request
  let session ← get
  let (fromSut, upper) := respond session.upper request
  set { session with upper }
  return fromSut

def orThrow {α : Type} (result : Except Fault α) : Callback σ α :=
  match result with
  | .ok a => pure a
  | .error fault => throw fault

def tpspCycle (toSutVector : BinaryVector) : RVFRequest := ⟨"TPSP_CYCLE", toSutVector⟩

/-- The loop over the data, `cur_bit` being one less than the bits to go. -/
def shiftData (toSutData : BinaryVector) : (bits : Nat) → BinaryVector → Callback σ BinaryVector
  | 0, result => pure result
  | curBit + 1, result => do
    let tdi ← orThrow (toSutData.slice curBit 1)
    let tms ← orThrow (createFromBinaryString "0".toList .notFixed .isError)
    let vector ← orThrow (tdi.concat tms)
    let tpspTdoBit ← exchange respond (tpspCycle vector)
    let result ← orThrow (build result (append tpspTdoBit))
    shiftData toSutData curBit result

/-- The bits that the loop goes through: its counter starts with the last one as an `int`, which is negative for more than 2^31 bits. -/
def loopBits (bitsCount : Nat) : Nat := if bitsCount ≤ 2 ^ 31 then bitsCount else 0

def transformationCallback (currentRequest : RVFRequest) : Callback σ BinaryVector := do
  let toSutData := currentRequest.toSutVector
  if currentRequest.callbackId = noMorePendingId then
    pushRequest ⟨noMorePendingId, empty⟩
    return empty
  let tms0 ← orThrow (createFromBinaryString "00".toList .notFixed .isError)
  let tms1 ← orThrow (createFromBinaryString "01".toList .notFixed .isError)
  if currentRequest.callbackId = "SDR" ∨ currentRequest.callbackId = "SIR" then
    -- to Select
    discard (exchange respond (tpspCycle tms1))
    if currentRequest.callbackId = "SIR" then
      discard (exchange respond (tpspCycle tms1))
    -- to Capture and to Shift
    discard (exchange respond (tpspCycle tms0))
    discard (exchange respond (tpspCycle tms0))
    let result ← shiftData respond toSutData (loopBits toSutData.usedBits) empty
    let result ← orThrow (result.reverseSlice 0 result.usedBits)
    -- to Exit, to Update and back to Run-Test/Idle
    discard (exchange respond (tpspCycle tms1))
    discard (exchange respond (tpspCycle tms1))
    discard (exchange respond (tpspCycle tms0))
    return result
  return empty

end Callback

/-! ### A test access port as what answers -/

/-- The cycle that a request asks for: TDI, and TMS behind it. -/
def cycleOf (request : RVFRequest) : Cycle :=
  ⟨request.toSutVector.bits[0]?.getD false, request.toSutVector.bits[1]?.getD false⟩

/-- The port answers with the level of TDO and takes the edge. -/
def portResponds (tap : Tap) (request : RVFRequest) : BinaryVector × Tap :=
  (ofBits [tap.tdo] .notFixed, tap.clock (cycleOf request))

def callbackOf : Column → String
  | .dr => "SDR"
  | .ir => "SIR"

/-! ### Cycles -/

theorem exchange_run {σ : Type} (respond : σ → RVFRequest → BinaryVector × σ) (request : RVFRequest)
    (session : Session σ) : (exchange respond request).run session =
      .ok (respond session.upper request).1
        ⟨(respond session.upper request).2, session.pushed ++ [request]⟩ := rfl

theorem portResponds_cycle (tap : Tap) (tdi tms : Bool) :
    portResponds tap (tpspCycle (ofBits [tdi, tms] .notFixed)) =
      (ofBits [tap.tdo] .notFixed, tap.clock ⟨tdi, tms⟩) := by
  simp only [portResponds, cycleOf, tpspCycle, bits_ofBits]
  rfl

/-- The cycles of the data, from the last bit. -/
def dataCycles (l : List Bool) : List Cycle := l.reverse.map fun tdi => ⟨tdi, false⟩

/-- The data cycles, with `bits` cycles to go: the register has the bits already sent before those not yet returned. -/
theorem shiftData_run {v : BinaryVector} (hv : v.Stored) {column : Column} {captured : List Bool}
    (hlength : captured.length = v.usedBits) {bits : Nat} (hbits : bits ≤ v.usedBits) {tap : Tap}
    (hstate : tap.state = .shift column)
    (hstages : (tap.register column).stages = v.bits.drop bits ++ captured.take bits)
    (pushed : List RVFRequest) :
    (∃ pushed',
      (shiftData portResponds v bits (ofBits (captured.drop bits).reverse .notFixed)).run
        ⟨tap, pushed⟩ =
          .ok (ofBits captured.reverse .notFixed) ⟨tap.run (dataCycles (v.bits.take bits)), pushed'⟩) ∧
      (tap.run (dataCycles (v.bits.take bits))).state = .shift column ∧
      (tap.run (dataCycles (v.bits.take bits))).register column = { tap.register column with
        stages := v.bits, shifts := (tap.register column).shifts + bits } := by
  induction bits generalizing tap pushed with
  | zero =>
    refine ⟨⟨pushed, rfl⟩, hstate, ?_⟩
    rw [List.drop_zero, List.take_zero, List.append_nil] at hstages
    rw [← hstages]
    rfl
  | succ curBit ih =>
    have hexact := hv.exactBytes
    have hbound := hv.usedBits_lt
    have hv_length := hexact.bits_length
    have htdi : (v.bits.drop curBit).take 1 = [v.bits[curBit]] := by
      rw [List.drop_eq_getElem_cons (by omega)]
      rfl
    have hslice : v.slice curBit 1 = .ok (ofBits [v.bits[curBit]] .notFixed) := by
      rw [slice_eq hexact hbound (by omega), htdi]
    have htms : createFromBinaryString "0".toList .notFixed .isError =
        .ok (ofBits [false] .notFixed) := by decide
    have hvector : (ofBits [v.bits[curBit]] .notFixed).concat (ofBits [false] .notFixed) =
        .ok (ofBits [v.bits[curBit], false] .notFixed) := by
      have htwo : 1 + 1 < uint32Size := by decide
      rw [concat_ofBits (ofBits_wellFormed _ _).exactBytes (by rw [ofBits_usedBits]; exact htwo),
        bits_ofBits]
      rfl
    -- the last of the bits captured is before TDO
    have hcaptured : captured.take (curBit + 1) = captured.take curBit ++ [captured[curBit]] :=
      List.take_succ_eq_append_getElem (by omega)
    have htdo : tap.tdo = captured[curBit] := by
      simp only [Tap.tdo, hstate, ScanRegister.output]
      rw [hstages, hcaptured, ← List.append_assoc, List.getLast?_concat]
      rfl
    have hresult : build (ofBits (captured.drop (curBit + 1)).reverse .notFixed)
        (append (ofBits [tap.tdo] .notFixed)) =
          .ok (ofBits (captured.drop curBit).reverse .notFixed) := by
      have hrun := append_ofBits (l := (captured.drop (curBit + 1)).reverse) (p := .notFixed)
        (ofBits_wellFormed [tap.tdo] .notFixed).exactBytes (by decide) (by
          rw [ofBits_usedBits, List.length_reverse, List.length_drop, List.length_singleton]
          omega)
      rw [build, hrun, bits_ofBits, htdo, List.drop_eq_getElem_cons (i := curBit) (by omega),
        List.reverse_cons]
    let next := tap.clock ⟨v.bits[curBit], false⟩
    let request := tpspCycle (ofBits [v.bits[curBit], false] .notFixed)
    have hstep : (shiftData portResponds v (curBit + 1)
        (ofBits (captured.drop (curBit + 1)).reverse .notFixed)).run ⟨tap, pushed⟩ =
        (shiftData portResponds v curBit (ofBits (captured.drop curBit).reverse .notFixed)).run
          ⟨next, pushed ++ [request]⟩ := by
      simp only [shiftData, EStateM.run_bind, hslice, htms, hvector, orThrow, EStateM.run_pure,
        exchange_run, portResponds_cycle, hresult]
      rfl
    have hregister : next.register column =
        ScanRegister.shifted v.bits[curBit] (tap.register column) := by
      rw [Tap.clock_shifts _ hstate, Tap.change_self]
    have hnext : (next.register column).stages = v.bits.drop curBit ++ captured.take curBit := by
      rw [hregister, ScanRegister.shifted, hstages, hcaptured, ← List.append_assoc,
        ← List.cons_append, List.dropLast_concat, List.drop_eq_getElem_cons (i := curBit) (by omega),
        List.cons_append]
    have hcycles : tap.run (dataCycles (v.bits.take (curBit + 1))) =
        next.run (dataCycles (v.bits.take curBit)) := by
      rw [List.take_succ_eq_append_getElem (by omega), dataCycles, List.reverse_append, List.map_append]
      rfl
    obtain ⟨⟨pushed', hrun⟩, hstate', hregister'⟩ := ih (by omega)
      (by rw [Tap.clock_state, hstate]; rfl) hnext (pushed ++ [request])
    rw [hcycles]
    refine ⟨⟨pushed', hstep.trans hrun⟩, hstate', ?_⟩
    rw [hregister', hregister]
    simp only [ScanRegister.shifted]
    congr 1
    omega

/-! ### A whole request -/

theorem fixedCycle_run (tms : Bool) (tap : Tap) (pushed : List RVFRequest) :
    (discard (exchange portResponds (tpspCycle (ofBits [false, tms] .notFixed)))).run ⟨tap, pushed⟩ =
      .ok () ⟨tap.clock ⟨false, tms⟩, pushed ++ [tpspCycle (ofBits [false, tms] .notFixed)]⟩ := by
  change (do let _ ← exchange portResponds (tpspCycle (ofBits [false, tms] .notFixed))
             pure ()).run _ = _
  rw [EStateM.run_bind, exchange_run, portResponds_cycle]
  rfl

theorem transformationCallback_run {column : Column} {v : BinaryVector} {tap entered shifted : Tap}
    (captured : List Bool) (pushed : List RVFRequest)
    (hentered : entered = tap.run ((Tap.entry column).map fun tms => ⟨false, tms⟩))
    (hshift : ∀ before, ∃ after, (shiftData portResponds v (loopBits v.usedBits) empty).run
      ⟨entered, before⟩ = .ok (ofBits captured.reverse .notFixed) ⟨shifted, after⟩)
    (hcaptured : captured.length + 7 < uint32Size) :
    ∃ session, (transformationCallback portResponds ⟨callbackOf column, v⟩).run ⟨tap, pushed⟩ =
        .ok (ofBits captured .notFixed) session ∧
      session.upper = shifted.run [⟨false, true⟩, ⟨false, true⟩, ⟨false, false⟩] := by
  have htms0 : createFromBinaryString "00".toList .notFixed .isError =
      .ok (ofBits [false, false] .notFixed) := by decide
  have htms1 : createFromBinaryString "01".toList .notFixed .isError =
      .ok (ofBits [false, true] .notFixed) := by decide
  have hreverse : (ofBits captured.reverse .notFixed).reverseSlice 0
      (ofBits captured.reverse .notFixed).usedBits = .ok (ofBits captured .notFixed) := by
    rw [reverseSlice_eq (ofBits_wellFormed _ _).exactBytes (by rw [ofBits_usedBits]; simp; omega)
      (by simp) (by rw [ofBits_usedBits]; simpa using hcaptured), bits_ofBits, List.drop_zero,
      ofBits_usedBits, List.take_length, List.reverse_reverse]
  cases column with
  | dr =>
    obtain ⟨after, hrun⟩ := hshift (pushed ++ [tpspCycle (ofBits [false, true] .notFixed)] ++
      [tpspCycle (ofBits [false, false] .notFixed)] ++ [tpspCycle (ofBits [false, false] .notFixed)])
    have henter : entered =
        ((tap.clock ⟨false, true⟩).clock ⟨false, false⟩).clock ⟨false, false⟩ := hentered
    rw [henter] at hrun
    refine ⟨⟨shifted.run [⟨false, true⟩, ⟨false, true⟩, ⟨false, false⟩],
      after ++ [tpspCycle (ofBits [false, true] .notFixed)] ++
        [tpspCycle (ofBits [false, true] .notFixed)] ++
        [tpspCycle (ofBits [false, false] .notFixed)]⟩, ?_, rfl⟩
    have hother : "SDR" ≠ noMorePendingId := by decide
    have hnot : "SDR" ≠ "SIR" := by decide
    change (transformationCallback portResponds ⟨"SDR", v⟩).run ⟨tap, pushed⟩ = _
    simp only [transformationCallback, EStateM.run_bind, if_neg hother, htms0, htms1,
      orThrow, EStateM.run_pure, true_or, if_true, if_neg hnot, fixedCycle_run, hrun, hreverse]
    rfl
  | ir =>
    obtain ⟨after, hrun⟩ := hshift (pushed ++ [tpspCycle (ofBits [false, true] .notFixed)] ++
      [tpspCycle (ofBits [false, true] .notFixed)] ++
      [tpspCycle (ofBits [false, false] .notFixed)] ++ [tpspCycle (ofBits [false, false] .notFixed)])
    have henter : entered = (((tap.clock ⟨false, true⟩).clock ⟨false, true⟩).clock
        ⟨false, false⟩).clock ⟨false, false⟩ := hentered
    rw [henter] at hrun
    refine ⟨⟨shifted.run [⟨false, true⟩, ⟨false, true⟩, ⟨false, false⟩],
      after ++ [tpspCycle (ofBits [false, true] .notFixed)] ++
        [tpspCycle (ofBits [false, true] .notFixed)] ++
        [tpspCycle (ofBits [false, false] .notFixed)]⟩, ?_, rfl⟩
    have hother : "SIR" ≠ noMorePendingId := by decide
    change (transformationCallback portResponds ⟨"SIR", v⟩).run ⟨tap, pushed⟩ = _
    simp only [transformationCallback, EStateM.run_bind, if_neg hother, htms0, htms1,
      orThrow, EStateM.run_pure, or_true, if_true, fixedCycle_run, hrun, hreverse]
    rfl

/-- What a request does to the port: the register is shifted once more than the vector has bits. -/
theorem scan_run {v : BinaryVector} (hv : v.Stored) {tap : Tap} {column : Column}
    (hidle : tap.state = .runTestIdle)
    (hlength : (tap.register column).inputs.length = v.usedBits) (hbits : v.usedBits ≤ 2 ^ 31)
    (pushed : List RVFRequest) :
    ∃ session, (transformationCallback portResponds ⟨callbackOf column, v⟩).run ⟨tap, pushed⟩ =
        .ok (ofBits (tap.register column).inputs .notFixed) session ∧
      session.upper.state = .runTestIdle ∧
      session.upper.register column =
        ⟨(tap.register column).inputs, (false :: v.bits).dropLast, (false :: v.bits).dropLast,
          (tap.register column).captures + 1, (tap.register column).shifts + v.usedBits + 1⟩ := by
  have hentry : ((Tap.entry column).map fun tms => (⟨false, tms⟩ : Cycle)).map Cycle.tms =
      Tap.entry column := by
    rw [List.map_map]
    exact List.map_id _
  obtain ⟨hstate, hregister⟩ := Tap.run_entry hidle hentry
  generalize hentered : tap.run ((Tap.entry column).map fun tms => ⟨false, tms⟩) = entered
    at hstate hregister
  have hall := hv.exactBytes.bits_length
  have hstages : (entered.register column).stages =
      v.bits.drop v.usedBits ++ (tap.register column).inputs.take v.usedBits := by
    rw [hregister, ← hlength, List.take_length, hlength, ← hall, List.drop_length]
    rfl
  have hempty : ofBits ((tap.register column).inputs.drop v.usedBits).reverse .notFixed = empty := by
    rw [← hlength, List.drop_length]
    rfl
  have hshift := shiftData_run hv hlength le_rfl hstate hstages
  obtain ⟨hshifted, hshiftedRegister⟩ := (hshift pushed).2
  obtain ⟨session, hrun, hupper⟩ := transformationCallback_run _ pushed hentered.symm
    (fun before => by
      rw [loopBits, if_pos hbits, ← hempty]
      exact (hshift before).1) (by rw [hlength]; unfold uint32Size; omega)
  obtain ⟨hleft, hleftRegister⟩ :=
    Tap.run_exit hshifted ⟨false, true⟩ ⟨false, true⟩ ⟨false, false⟩ rfl rfl rfl
  refine ⟨session, hrun, ?_, ?_⟩
  · rw [hupper]
    exact hleft
  · rw [hupper, hleftRegister, hshiftedRegister, hregister]
    rfl

/-- With more bits than an `int` can count there are no data cycles at all. -/
theorem scan_run_large {v : BinaryVector} {tap : Tap} {column : Column}
    (hidle : tap.state = .runTestIdle) (hlarge : 2 ^ 31 < v.usedBits) (pushed : List RVFRequest) :
    ∃ session, (transformationCallback portResponds ⟨callbackOf column, v⟩).run ⟨tap, pushed⟩ =
        .ok empty session ∧
      (session.upper.register column).shifts = (tap.register column).shifts + 1 := by
  have hentry : ((Tap.entry column).map fun tms => (⟨false, tms⟩ : Cycle)).map Cycle.tms =
      Tap.entry column := by
    rw [List.map_map]
    exact List.map_id _
  obtain ⟨hstate, hregister⟩ := Tap.run_entry hidle hentry
  generalize hentered : tap.run ((Tap.entry column).map fun tms => ⟨false, tms⟩) = entered
    at hstate hregister
  obtain ⟨session, hrun, hupper⟩ := transformationCallback_run [] pushed hentered.symm
    (fun before => by
      rw [loopBits, if_neg (Nat.not_le.mpr hlarge)]
      exact ⟨before, rfl⟩) (by decide)
  have hleft := (Tap.run_exit hstate ⟨false, true⟩ ⟨false, true⟩ ⟨false, false⟩ rfl rfl rfl).2
  refine ⟨session, hrun, ?_⟩
  rw [hupper, hleft, hregister]
  rfl

/-! ### The law -/

/-- The request is served from Run-Test/Idle through one capture and one shift for each bit and back, the register ends with the vector at its outputs, and the vector returned is what was captured. -/
def ScansExactly (tap : Tap) (column : Column) (v : BinaryVector) : Prop :=
  ∃ result session, (transformationCallback portResponds ⟨callbackOf column, v⟩).run ⟨tap, []⟩ =
      .ok result session ∧
    session.upper.state = .runTestIdle ∧
    (session.upper.register column).captures = (tap.register column).captures + 1 ∧
    (session.upper.register column).shifts = (tap.register column).shifts + v.usedBits ∧
    (session.upper.register column).outputs = v.bits ∧
    result.usedBits = v.usedBits ∧ result.bits = (tap.register column).inputs

/-- No request is served exactly: the edge that leaves the shift state, for which the callback sends a cycle of its own, shifts once more. -/
theorem scan_never (tap : Tap) (column : Column) (v : BinaryVector) (hv : v.Stored)
    (hidle : tap.state = .runTestIdle)
    (hlength : (tap.register column).inputs.length = v.usedBits) : ¬ScansExactly tap column v := by
  rintro ⟨result, session, hrun, -, -, hshifts, -⟩
  by_cases hbits : v.usedBits ≤ 2 ^ 31
  · obtain ⟨session', hrun', -, hregister⟩ := scan_run hv hidle hlength hbits []
    cases hrun.symm.trans hrun'
    rw [hregister] at hshifts
    simp only at hshifts
    omega
  · obtain ⟨session', hrun', hshifts'⟩ := scan_run_large hidle (Nat.lt_of_not_le hbits) []
    cases hrun.symm.trans hrun'
    omega

/-- A port at rest, with registers of one cell. -/
def restingPort : Tap := ⟨.runTestIdle, fun _ => ⟨[true], [false], [false], 0, 0⟩⟩

theorem scan_never_one_bit : ¬ScansExactly restingPort .dr (ofBits [true] .notFixed) :=
  scan_never restingPort .dr (ofBits [true] .notFixed)
    ⟨(ofBits_wellFormed _ _).exactBytes, by decide⟩ rfl rfl

/-- One bit is shifted in and out again: the register ends with the zero that the exit shifts in. -/
theorem not_scansExactly : ¬∀ (tap : Tap) (column : Column) (v : BinaryVector), v.Stored →
    0 < v.usedBits → tap.state = .runTestIdle →
      (tap.register column).inputs.length = v.usedBits → ScansExactly tap column v := by
  intro hall
  obtain ⟨result, session, hrun, -, -, -, houtputs, -⟩ := hall restingPort .ir
    (ofBits [true] .notFixed) ⟨(ofBits_wellFormed _ _).exactBytes, by decide⟩ (by decide) rfl rfl
  have hstored : (ofBits [true] .notFixed).Stored :=
    ⟨(ofBits_wellFormed _ _).exactBytes, by decide⟩
  obtain ⟨session', hrun', -, hregister⟩ :=
    @scan_run _ hstored restingPort .ir rfl rfl (by decide) []
  cases hrun.symm.trans hrun'
  rw [hregister, bits_ofBits] at houtputs
  exact absurd houtputs (by decide)

end Tpsp

end Mast
