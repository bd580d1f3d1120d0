import Mast.Lib.Attempt
import Mast.Scan.RangeChecks
import Mast.Scan.ScanPath
import Mast.Scan.View

/-!
# Vectors of the wrong length

`FromSutUpdater` finds out that the vector that came back has a wrong length once it gets to a register that has no bits left, or to the end. The registers before have been served by then. Nothing is seen of this only if serving them changes nothing.
-/

namespace Mast

open Attempt (attempt)
open Outcome

namespace FromSutUpdater

/-! ### Updates that keep the state when they throw -/

/-- One iteration of the loop of `UpdateRegisters`, with the offset. Registers of full width are left alone by an iteration that throws. -/
def updateStep (fromSutVector : Bits) (regId : Nat) :
    Nat × SystemModel → Except Fault (Nat × SystemModel)
  | (offset, s) => do
    match ← s.registerWithId regId with
    | none => .error (.runtimeError "Nodes identifiers must refer to valid Register nodes")
    | some reg =>
      let updated ← updateRegister reg regId offset fromSutVector
      return ((offset + reg.bitsCount) % uint32Size, s.setRegister regId updated)

/-- The check after the loop. -/
def finish (fromSutVector : Bits) (served : Attempt Fault (Nat × SystemModel)) :
    Attempt Fault SystemModel :=
  if served.fault = none ∧ served.state.1 ≠ fromSutVector.length then
    ⟨served.state.2, some (.logicError ("fromSutVector has not been completly consumed (" ++
      toString ((fromSutVector.length + (uint32Size - served.state.1)) % uint32Size) ++
        " bits left)"))⟩
  else served.map Prod.snd

/-- `UpdateRegisters`, with the state that it leaves. -/
def attemptUpdateRegisters (activeRegisters : List Nat) (fromSutVector : Bits) (s : SystemModel) :
    Attempt Fault SystemModel :=
  finish fromSutVector (attempt (updateStep fromSutVector) activeRegisters (0, s))

section Connection

variable {fromSutVector : Bits} {ids : List Nat} {offset : Nat} {s : SystemModel}

theorem updateStep_ok {id : Nat} {r : Register} (hregister : s.IsRegister id)
    (hupdate : updateRegister (s.registers id) id offset fromSutVector = .ok r) :
    updateStep fromSutVector id (offset, s) =
      .ok ((offset + (s.registers id).bitsCount) % uint32Size, s.setRegister id r) := by
  have hwithId : s.registerWithId id = .ok (some (s.registers id)) := by
    rw [SystemModel.registerWithId, hregister]
  simp only [updateStep, hwithId, hupdate, bind, Except.bind, pure, Except.pure]

theorem updateStep_error {id : Nat} {fault : Fault} (hregister : s.IsRegister id)
    (hupdate : updateRegister (s.registers id) id offset fromSutVector = .error fault) :
    updateStep fromSutVector id (offset, s) = .error fault := by
  have hwithId : s.registerWithId id = .ok (some (s.registers id)) := by
    rw [SystemModel.registerWithId, hregister]
  simp only [updateStep, hwithId, hupdate, bind, Except.bind]

theorem attempt_updateFrom (ids : List Nat) (offset : Nat) (s : SystemModel) :
    (finish fromSutVector (attempt (updateStep fromSutVector) ids (offset, s))).toExcept =
      updateFrom fromSutVector ids offset s := by
  induction ids generalizing offset s with
  | nil =>
    rw [attempt, finish, updateFrom]
    by_cases hconsumed : offset ≠ fromSutVector.length
    · rw [if_pos ⟨rfl, hconsumed⟩, if_pos hconsumed]
      rfl
    · rw [if_neg fun h => hconsumed h.2, if_neg hconsumed]
      rfl
  | cons id rest ih =>
    rw [updateFrom]
    have hfaulty : ∀ {fault : Fault}, updateStep fromSutVector id (offset, s) = .error fault →
        (finish fromSutVector (attempt (updateStep fromSutVector) (id :: rest)
          (offset, s))).toExcept = .error fault := fun hstep => by
      rw [Attempt.attempt_error hstep, finish, if_neg fun h => by cases h.1]
      rfl
    cases hfound : s.registerWithId id with
    | error fault => exact hfaulty (by simp only [updateStep, hfound, bind, Except.bind])
    | ok found =>
      cases found with
      | none => exact hfaulty (by simp only [updateStep, hfound, bind, Except.bind])
      | some reg =>
        cases hupdate : updateRegister reg id offset fromSutVector with
        | error fault =>
          have hstep : updateStep fromSutVector id (offset, s) = .error fault := by
            simp only [updateStep, hfound, hupdate, bind, Except.bind]
          rw [hfaulty hstep]
          simp only [hupdate, bind, Except.bind]
        | ok r =>
          have hstep : updateStep fromSutVector id (offset, s) =
              .ok ((offset + reg.bitsCount) % uint32Size, s.setRegister id r) := by
            simp only [updateStep, hfound, hupdate, bind, Except.bind, pure, Except.pure]
          rw [Attempt.attempt_ok hstep, ih]
          simp only [hupdate, bind, Except.bind]

theorem attemptUpdateRegisters_toExcept (activeRegisters : List Nat) (fromSutVector : Bits)
    (s : SystemModel) :
    (attemptUpdateRegisters activeRegisters fromSutVector s).toExcept =
      updateRegisters activeRegisters fromSutVector s :=
  attempt_updateFrom activeRegisters 0 s

end Connection

end FromSutUpdater

/-! ### Registers that serving leaves as they are -/

/-- The register has sent what it sends next, and waits for nothing. -/
structure Register.Idle (r : Register) : Prop where
  lastToSut : r.lastToSut = r.nextToSut
  pendingRead : r.pendingRead = false
  pendingCount : r.pendingCount = 0
  mustCheckExpected : r.mustCheckExpected = false

/-- The register but for the last sequence it received. -/
def Register.Received (r r' : Register) (received : Bits) : Prop :=
  ∃ hlength, r' = { r with lastFromSut := received, lastFromSut_length := hlength }

namespace FromSutUpdater

variable {r r' : Register} {id offset : Nat} {fromSutVector : Bits}

theorem served_idle {received : Bits} (hserved : r.Served r' received) : r'.Idle :=
  ⟨hserved.lastToSut.trans hserved.nextToSut.symm, hserved.pendingRead, hserved.pendingCount,
    hserved.mustCheckExpected⟩

/-- Serving an idle register changes the last sequence it received only. -/
theorem updateRegister_idle (hidle : r.Idle) {received : Bits}
    (hslice : fromSutVector.slice offset r.bitsCount = .ok received)
    (hupdate : updateRegister r id offset fromSutVector = .ok r') : r.Received r' received := by
  unfold updateRegister at hupdate
  split at hupdate
  · cases hupdate
  · simp only [hslice, bind, Except.bind] at hupdate
    obtain ⟨hlast, hread, hcount, hcheck⟩ := hidle
    unfold Register.setFromSut at hupdate
    simp only [hcheck, Bool.false_eq_true, if_false] at hupdate
    by_cases hfits : r.Fits received
    · simp only [dif_pos hfits, pure, Except.pure] at hupdate
      obtain rfl := Except.ok.inj hupdate
      refine ⟨hfits.length, ?_⟩
      cases r
      simp only at hlast hread hcount hcheck
      subst hlast hread hcount hcheck
      rfl
    · simp only [dif_neg hfits] at hupdate
      cases hupdate

/-- The call has thrown and left every register as it was. -/
def UpdatesNothing (activeRegisters : List Nat) (fromSutVector : Bits) (s : SystemModel) : Prop :=
  (∃ fault, (attemptUpdateRegisters activeRegisters fromSutVector s).fault = some fault ∧
      fault ≠ .undefinedBehaviour) ∧
    (attemptUpdateRegisters activeRegisters fromSutVector s).state.registers = s.registers

def lastReceived (s : SystemModel) (id : Nat) : Bits := (s.registers id).lastFromSut

/-- The vector has no bits for a register of the given width at the offset, and the checks find this out. -/
def Lacks (length offset width : Nat) : Prop :=
  length < (offset + width) % uint32Size ∨ width ≠ 0 ∧ length ≤ offset

/-- Until the vector lacks bits, the registers that are served are idle; `received` holds what was received by then, and at the end it is what had been received before. -/
def Spares (s : SystemModel) (fromSutVector : Bits) : List Nat → Nat → (Nat → Bits) → Prop
  | [], offset, received => offset ≠ fromSutVector.length ∧ received = lastReceived s
  | id :: rest, offset, received =>
    let width := (s.registers id).bitsCount
    Lacks fromSutVector.length offset width ∧ received = lastReceived s ∨
      ¬Lacks fromSutVector.length offset width ∧ offset + width < uint32Size ∧
        (s.registers id).Idle ∧
        Spares s fromSutVector rest (offset + width)
          (Function.update received id ((fromSutVector.drop offset).take width))

section Sparing

variable {s t : SystemModel} {ids : List Nat} {received : Nat → Bits}

/-- The registers but for the last sequences they received. -/
def ReceivedIn (s : SystemModel) (received : Nat → Bits) (t : SystemModel) : Prop :=
  t.identifierMapping = s.identifierMapping ∧
    ∀ id, (s.registers id).Received (t.registers id) (received id)

theorem ReceivedIn.start (s : SystemModel) : ReceivedIn s (lastReceived s) s :=
  ⟨rfl, fun id => ⟨(s.registers id).lastFromSut_length, rfl⟩⟩

theorem ReceivedIn.registers_iff (ht : ReceivedIn s received t) :
    t.registers = s.registers ↔ received = lastReceived s := by
  constructor
  · intro hsame
    funext id
    obtain ⟨hlength, hr⟩ := ht.2 id
    have hlast := congrArg Register.lastFromSut hr
    rw [hsame] at hlast
    exact hlast.symm
  · intro hsame
    funext id
    obtain ⟨hlength, hr⟩ := ht.2 id
    subst hsame
    exact hr

theorem ReceivedIn.serve (ht : ReceivedIn s received t) (hidle : (s.registers id).Idle)
    {slice : Bits} (hslice : fromSutVector.slice offset (s.registers id).bitsCount = .ok slice)
    (hupdate : updateRegister (t.registers id) id offset fromSutVector = .ok r') :
    ReceivedIn s (Function.update received id slice) (t.setRegister id r') := by
  obtain ⟨hmapping, hreceived⟩ := ht
  refine ⟨hmapping, fun other => ?_⟩
  by_cases hother : other = id
  · subst hother
    rw [SystemModel.setRegister_self, Function.update_self]
    obtain ⟨hlength, hr⟩ := hreceived other
    rw [hr] at hupdate
    obtain ⟨hlength', hr'⟩ := updateRegister_idle ⟨hidle.lastToSut, hidle.pendingRead,
      hidle.pendingCount, hidle.mustCheckExpected⟩ hslice hupdate
    exact ⟨hlength', hr'⟩
  · rw [SystemModel.setRegister_other _ _ hother, Function.update_of_ne hother]
    exact hreceived other

/-- A register that has been served is idle from then on. -/
theorem attempt_idle {reg : Nat} (hidle : (t.registers reg).Idle) (ids : List Nat) (offset : Nat) :
    ((attempt (updateStep fromSutVector) ids (offset, t)).state.2.registers reg).Idle := by
  have hkeeps : ∀ id ∈ ids, ∀ {left left' : Nat × SystemModel},
      updateStep fromSutVector id left = .ok left' →
        (fun left : Nat × SystemModel => (left.2.registers reg).Idle) left →
        (fun left : Nat × SystemModel => (left.2.registers reg).Idle) left' := by
    intro id _ left left' hstep hleft
    obtain ⟨offset, s⟩ := left
    obtain ⟨found, hfound, hstep⟩ := bind_eq_ok.mp hstep
    cases found with
    | none => cases hstep
    | some r =>
      obtain ⟨updated, hupdated, hstep⟩ := bind_eq_ok.mp hstep
      obtain rfl := Except.ok.inj hstep
      obtain ⟨received, -, hserved⟩ := updateRegister_served hupdated
      by_cases hsame : reg = id
      · subst hsame
        simp only [SystemModel.setRegister_self]
        exact served_idle hserved
      · simp only [SystemModel.setRegister_other _ _ hsame]
        exact hleft
  exact Attempt.attempt_keeps hkeeps hidle

theorem finish_state (served : Attempt Fault (Nat × SystemModel)) :
    (finish fromSutVector served).state = served.state.2 := by
  unfold finish
  split
  · rfl
  · rfl

theorem finish_error {fault : Fault} :
    finish fromSutVector ⟨(offset, t), some fault⟩ = ⟨t, some fault⟩ := by
  rw [finish, if_neg fun h => by cases h.1]
  rfl

theorem updateRegister_lacks (hlacks : Lacks fromSutVector.length offset r.bitsCount) :
    ∃ fault, fault ≠ .undefinedBehaviour ∧
      updateRegister r id offset fromSutVector = .error fault := by
  unfold updateRegister
  by_cases hsmall : (offset + r.bitsCount) % uint32Size > fromSutVector.length
  · rw [if_pos hsmall]
    exact ⟨_, by simp, rfl⟩
  · obtain ⟨hsome, hbehind⟩ := hlacks.resolve_left hsmall
    obtain ⟨fault, hdefined, hslice⟩ := Bits.slice_rejects hsome (.inl hbehind)
    exact ⟨fault, hdefined, by simp only [if_neg hsmall, hslice, bind, Except.bind]⟩

theorem updateRegister_undefined (hvector : fromSutVector.length + 7 < uint32Size)
    (hwidth : r.bitsCount < uint32Size)
    (hlacks : ¬Lacks fromSutVector.length offset r.bitsCount)
    (hoffset : offset ≤ fromSutVector.length) (hwraps : uint32Size ≤ offset + r.bitsCount) :
    updateRegister r id offset fromSutVector = .error .undefinedBehaviour := by
  unfold Lacks at hlacks
  push Not at hlacks
  have hsmall : ¬(offset + r.bitsCount) % uint32Size > fromSutVector.length := by omega
  have hslice := Bits.slice_undefined hvector hwidth (hlacks.2 (by omega)) hwraps
  simp only [updateRegister, if_neg hsmall, hslice, bind, Except.bind]

theorem attempt_spares (hvector : fromSutVector.length + 7 < uint32Size)
    (hregister : ∀ id ∈ ids, s.IsRegister id)
    (hfull : ∀ id ∈ ids, (s.registers id).FullWidth ∧ (s.registers id).bitsCount < uint32Size)
    (ht : ReceivedIn s received t) (hoffset : offset ≤ fromSutVector.length) :
    ((∃ fault, (finish fromSutVector (attempt (updateStep fromSutVector) ids (offset, t))).fault =
          some fault ∧ fault ≠ .undefinedBehaviour) ∧
        (finish fromSutVector (attempt (updateStep fromSutVector) ids (offset, t))).state.registers =
          s.registers) ↔
      Spares s fromSutVector ids offset received := by
  induction ids generalizing offset t received with
  | nil =>
    rw [attempt, Spares, finish_state, ht.registers_iff]
    refine and_congr_left fun _ => ?_
    rw [finish]
    by_cases hconsumed : offset ≠ fromSutVector.length
    · rw [if_pos ⟨rfl, hconsumed⟩]
      exact iff_of_true ⟨_, rfl, by simp⟩ hconsumed
    · rw [if_neg fun h => hconsumed h.2]
      refine iff_of_false ?_ hconsumed
      rintro ⟨fault, hfault, -⟩
      cases hfault
  | cons id rest ih =>
    rw [List.forall_mem_cons] at hregister hfull
    obtain ⟨hlengthId, hrId⟩ := ht.2 id
    have hcount : (t.registers id).bitsCount = (s.registers id).bitsCount := by
      rw [hrId]
      rfl
    have hregisterT : t.IsRegister id := by
      rw [SystemModel.IsRegister, ht.1]
      exact hregister.1
    rw [Spares]
    by_cases hlacks : Lacks fromSutVector.length offset (s.registers id).bitsCount
    · obtain ⟨fault, hdefined, hupdate⟩ : ∃ fault, fault ≠ Fault.undefinedBehaviour ∧
          updateRegister (t.registers id) id offset fromSutVector = .error fault :=
        updateRegister_lacks (by rwa [hcount])
      rw [Attempt.attempt_error (updateStep_error hregisterT hupdate), finish_error,
        ht.registers_iff]
      constructor
      · exact fun h => .inl ⟨hlacks, h.2⟩
      · exact fun h => ⟨⟨fault, rfl, hdefined⟩, (h.resolve_right fun h => h.1 hlacks).2⟩
    · by_cases hwraps : uint32Size ≤ offset + (s.registers id).bitsCount
      · have hupdate : updateRegister (t.registers id) id offset fromSutVector =
            .error .undefinedBehaviour :=
          updateRegister_undefined hvector (by rw [hcount]; exact hfull.1.2) (by rwa [hcount])
            hoffset (by rwa [hcount])
        rw [Attempt.attempt_error (updateStep_error hregisterT hupdate), finish_error]
        refine iff_of_false ?_ ?_
        · rintro ⟨⟨fault, hfault, hdefined⟩, -⟩
          exact hdefined (Option.some.inj hfault).symm
        · rintro (⟨h, -⟩ | ⟨-, hsum, -⟩)
          · exact hlacks h
          · omega
      · have hfits : offset + (s.registers id).bitsCount ≤ fromSutVector.length := by
          unfold Lacks at hlacks
          rw [Nat.mod_eq_of_lt (by omega)] at hlacks
          omega
        have hslice := Bits.slice_eq (by omega) hfits
        have hfullT : (t.registers id).FullWidth := by
          rw [hrId]
          exact ⟨hfull.1.1.nextToSut, hfull.1.1.expectedFromSut, hfull.1.1.dontCareMask⟩
        have hfitsT : offset + (t.registers id).bitsCount ≤ fromSutVector.length := by rwa [hcount]
        obtain ⟨r', hupdate, hserved⟩ := updateRegister_defined hfullT.comparable id
          (show fromSutVector.length < uint32Size by omega) hfitsT
        have hnext : (offset + (t.registers id).bitsCount) % uint32Size =
            offset + (s.registers id).bitsCount := by
          rw [hcount, Nat.mod_eq_of_lt (by omega)]
        rw [Attempt.attempt_ok (updateStep_ok hregisterT hupdate), hnext]
        by_cases hidle : (s.registers id).Idle
        · rw [ih hregister.2 hfull.2 (ht.serve hidle hslice hupdate) hfits]
          constructor
          · exact fun h => .inr ⟨hlacks, by omega, hidle, h⟩
          · rintro (⟨h, -⟩ | ⟨-, -, -, h⟩)
            · exact absurd h hlacks
            · exact h
        · -- once served, the register is idle
          refine iff_of_false ?_ ?_
          · rintro ⟨-, hsame⟩
            have hr' : ((t.setRegister id r').registers id).Idle := by
              rw [SystemModel.setRegister_self]
              exact served_idle hserved
            rw [finish_state] at hsame
            have hleft := hsame ▸ attempt_idle hr' rest (offset + (s.registers id).bitsCount)
            exact hidle hleft
          · rintro (⟨h, -⟩ | ⟨-, -, h, -⟩)
            · exact hlacks h
            · exact hidle h

/-- A vector updates nothing exactly when the registers that are served before it lacks bits are idle and have already received what they receive. -/
theorem updatesNothing_iff {activeRegisters : List Nat}
    (hregister : ∀ id ∈ activeRegisters, s.IsRegister id)
    (hfull : ∀ id ∈ activeRegisters,
      (s.registers id).FullWidth ∧ (s.registers id).bitsCount < uint32Size)
    (hvector : fromSutVector.length + 7 < uint32Size) :
    UpdatesNothing activeRegisters fromSutVector s ↔
      Spares s fromSutVector activeRegisters 0 (lastReceived s) :=
  attempt_spares hvector hregister hfull (.start s) (Nat.zero_le _)

end Sparing

/-! ### Two registers of one bit -/

def twoBits : SystemModel := VirtualRegister.twoRegisters [false] [false] .downto

theorem twoBits_full : ∀ id ∈ [0, 1], twoBits.IsRegister id ∧
    (twoBits.registers id).FullWidth ∧ (twoBits.registers id).bitsCount < uint32Size := by
  intro id hid
  simp only [List.mem_cons, List.not_mem_nil, or_false] at hid
  rcases hid with rfl | rfl
  · exact ⟨rfl, ⟨rfl, rfl, fun h => absurd rfl h⟩, by decide⟩
  · exact ⟨rfl, ⟨rfl, rfl, fun h => absurd rfl h⟩, by decide⟩

theorem updatesNothing_empty :
    UpdatesNothing [0, 1] [] twoBits ↔ Spares twoBits [] [0, 1] 0 (lastReceived twoBits) :=
  updatesNothing_iff (fun id hid => (twoBits_full id hid).1) (fun id hid => (twoBits_full id hid).2)
    (by decide)

/-- A vector of one bit is taken by the first register before the second one misses its bit. -/
theorem not_updatesNothing_short :
    width twoBits [0, 1] = 2 ∧ ¬UpdatesNothing [0, 1] [true] twoBits := by
  refine ⟨rfl, fun hnothing => ?_⟩
  have hspares := (attempt_spares (by decide) (fun id hid => (twoBits_full id hid).1)
    (fun id hid => (twoBits_full id hid).2) (.start twoBits) (Nat.zero_le _)).mp hnothing
  have hhas : ¬Lacks [true].length 0 (twoBits.registers 0).bitsCount := by
    rintro (hsmall | ⟨-, hbehind⟩)
    · exact absurd hsmall (by decide)
    · cases hbehind
  obtain ⟨-, -, -, hrest⟩ := hspares.resolve_left fun h => hhas h.1
  have hlacks : Lacks [true].length (0 + (twoBits.registers 0).bitsCount)
      (twoBits.registers 1).bitsCount := .inl (by decide)
  obtain ⟨-, hsame⟩ := hrest.resolve_right fun h => h.1 hlacks
  have hfirst := congrFun hsame 0
  rw [Function.update_self] at hfirst
  cases hfirst

end FromSutUpdater

end Mast
