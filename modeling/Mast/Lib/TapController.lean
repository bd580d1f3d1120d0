import Mathlib.Data.List.Basic
import Mathlib.Logic.Function.Basic

/-!
# Test access ports

The controller of a test access port (IEEE 1149.1) and the two scan registers behind it, one for data and one for instructions. A cycle is a rising edge of the test clock with the levels of TMS and TDI at that edge: what the controller does in a state happens on the edge that leaves it, so a register is shifted once more by the edge that leaves the shift state. The stage nearest to TDI is the first one of a register, and TDO is driven in the shift states only, with the last stage.
-/

namespace TapController

inductive Column
  | dr
  | ir
  deriving DecidableEq

inductive State
  | testLogicReset
  | runTestIdle
  | select (column : Column)
  | capture (column : Column)
  | shift (column : Column)
  | exit1 (column : Column)
  | pause (column : Column)
  | exit2 (column : Column)
  | update (column : Column)
  deriving DecidableEq

def State.next : State → (tms : Bool) → State
  | .testLogicReset, tms => if tms then .testLogicReset else .runTestIdle
  | .runTestIdle, tms => if tms then .select .dr else .runTestIdle
  | .select .dr, tms => if tms then .select .ir else .capture .dr
  | .select .ir, tms => if tms then .testLogicReset else .capture .ir
  | .capture column, tms => if tms then .exit1 column else .shift column
  | .shift column, tms => if tms then .exit1 column else .shift column
  | .exit1 column, tms => if tms then .update column else .pause column
  | .pause column, tms => if tms then .exit2 column else .pause column
  | .exit2 column, tms => if tms then .update column else .shift column
  | .update _, tms => if tms then .select .dr else .runTestIdle

/-- A scan register with what happened to it: how often it has captured its inputs and shifted. -/
structure ScanRegister where
  inputs : List Bool
  stages : List Bool
  outputs : List Bool
  captures : Nat
  shifts : Nat
  deriving DecidableEq

namespace ScanRegister

def captured (register : ScanRegister) : ScanRegister :=
  { register with stages := register.inputs, captures := register.captures + 1 }

def shifted (tdi : Bool) (register : ScanRegister) : ScanRegister :=
  { register with stages := (tdi :: register.stages).dropLast, shifts := register.shifts + 1 }

def updated (register : ScanRegister) : ScanRegister :=
  { register with outputs := register.stages }

def output (register : ScanRegister) : Bool := register.stages.getLast?.getD false

end ScanRegister

structure Tap where
  state : State
  register : Column → ScanRegister

/-- The levels of TDI and TMS at a rising edge. -/
structure Cycle where
  tdi : Bool
  tms : Bool
  deriving DecidableEq

namespace Tap

def change (tap : Tap) (column : Column) (f : ScanRegister → ScanRegister) :
    Column → ScanRegister :=
  Function.update tap.register column (f (tap.register column))

def clock (tap : Tap) (cycle : Cycle) : Tap where
  state := tap.state.next cycle.tms
  register :=
    match tap.state with
    | .capture column => tap.change column ScanRegister.captured
    | .shift column => tap.change column (ScanRegister.shifted cycle.tdi)
    | .update column => tap.change column ScanRegister.updated
    | _ => tap.register

/-- What TDO is driven with before the edge. -/
def tdo (tap : Tap) : Bool :=
  match tap.state with
  | .shift column => (tap.register column).output
  | _ => false

def run (tap : Tap) (cycles : List Cycle) : Tap := cycles.foldl clock tap

theorem run_append (tap : Tap) (cycles cycles' : List Cycle) :
    tap.run (cycles ++ cycles') = (tap.run cycles).run cycles' :=
  List.foldl_append

theorem run_cons (tap : Tap) (cycle : Cycle) (cycles : List Cycle) :
    tap.run (cycle :: cycles) = (tap.clock cycle).run cycles := rfl

@[simp] theorem clock_state (tap : Tap) (cycle : Cycle) :
    (tap.clock cycle).state = tap.state.next cycle.tms := rfl

/-! ### Edges in the states of a column -/

section Edges

variable {tap : Tap} {column : Column} (cycle : Cycle)

theorem clock_shifts (hstate : tap.state = .shift column) :
    (tap.clock cycle).register = tap.change column (ScanRegister.shifted cycle.tdi) := by
  simp only [clock, hstate]

theorem change_self (f : ScanRegister → ScanRegister) :
    tap.change column f column = f (tap.register column) :=
  Function.update_self ..

end Edges

/-! ### The way to the shift state and back -/

/-- The levels of TMS from Run-Test/Idle to the shift state. -/
def entry : Column → List Bool
  | .dr => [true, false, false]
  | .ir => [true, true, false, false]

/-- The edges of the entry capture the inputs once; TDI does not matter. -/
theorem run_entry {tap : Tap} (hidle : tap.state = .runTestIdle) {column : Column}
    {cycles : List Cycle} (hcycles : cycles.map Cycle.tms = entry column) :
    (tap.run cycles).state = .shift column ∧
      (tap.run cycles).register column = (tap.register column).captured := by
  obtain ⟨state, register⟩ := tap
  obtain rfl : state = .runTestIdle := hidle
  cases column with
  | dr =>
    obtain ⟨c₁, rest, rfl, h₁, hrest⟩ := List.map_eq_cons_iff.mp hcycles
    obtain ⟨c₂, rest, rfl, h₂, hrest⟩ := List.map_eq_cons_iff.mp hrest
    obtain ⟨c₃, rest, rfl, h₃, hrest⟩ := List.map_eq_cons_iff.mp hrest
    obtain rfl := List.map_eq_nil_iff.mp hrest
    refine ⟨?_, ?_⟩
    · simp only [run, List.foldl_cons, List.foldl_nil, clock_state, h₁, h₂, h₃, State.next]
      rfl
    · simp only [run, List.foldl_cons, List.foldl_nil, clock, h₁, h₂, State.next]
      exact change_self _
  | ir =>
    obtain ⟨c₁, rest, rfl, h₁, hrest⟩ := List.map_eq_cons_iff.mp hcycles
    obtain ⟨c₂, rest, rfl, h₂, hrest⟩ := List.map_eq_cons_iff.mp hrest
    obtain ⟨c₃, rest, rfl, h₃, hrest⟩ := List.map_eq_cons_iff.mp hrest
    obtain ⟨c₄, rest, rfl, h₄, hrest⟩ := List.map_eq_cons_iff.mp hrest
    obtain rfl := List.map_eq_nil_iff.mp hrest
    refine ⟨?_, ?_⟩
    · simp only [run, List.foldl_cons, List.foldl_nil, clock_state, h₁, h₂, h₃, h₄, State.next]
      rfl
    · simp only [run, List.foldl_cons, List.foldl_nil, clock, h₁, h₂, h₃, State.next]
      exact change_self _

/-- The edge that leaves the shift state shifts once more, before the outputs are updated. -/
theorem run_exit {tap : Tap} {column : Column} (hstate : tap.state = .shift column)
    (last exit update : Cycle) (hlast : last.tms = true) (hexit : exit.tms = true)
    (hupdate : update.tms = false) :
    (tap.run [last, exit, update]).state = .runTestIdle ∧
      (tap.run [last, exit, update]).register column =
        ((tap.register column).shifted last.tdi).updated := by
  obtain ⟨state, register⟩ := tap
  obtain rfl : state = .shift column := hstate
  refine ⟨?_, ?_⟩
  · simp only [run, List.foldl_cons, List.foldl_nil, clock_state, hlast, hexit, hupdate, State.next]
    rfl
  · simp only [run, List.foldl_cons, List.foldl_nil, clock, hlast, hexit, State.next, if_true,
      change_self]

theorem run_idle {tap : Tap} (hidle : tap.state = .runTestIdle) {cycles : List Cycle}
    (hcycles : ∀ cycle ∈ cycles, cycle.tms = false) : tap.run cycles = tap := by
  induction cycles with
  | nil => rfl
  | cons cycle cycles ih =>
    obtain ⟨state, register⟩ := tap
    obtain rfl : state = .runTestIdle := hidle
    have hstay : Tap.clock ⟨.runTestIdle, register⟩ cycle = ⟨.runTestIdle, register⟩ := by
      rw [clock, hcycles cycle List.mem_cons_self]
      rfl
    rw [run_cons, hstay]
    exact ih fun other hother => hcycles other (List.mem_cons_of_mem _ hother)

/-- Shifts without leaving the shift state: the register has the last bits sent, the latest first. -/
theorem run_shifts {tap : Tap} {column : Column} (hstate : tap.state = .shift column)
    (sent : List Bool) :
    (tap.run (sent.map fun tdi => ⟨tdi, false⟩)).state = .shift column ∧
      (tap.run (sent.map fun tdi => ⟨tdi, false⟩)).register column = { tap.register column with
        stages := (sent.reverse ++ (tap.register column).stages).take
          (tap.register column).stages.length
        shifts := (tap.register column).shifts + sent.length } := by
  induction sent generalizing tap with
  | nil =>
    refine ⟨hstate, ?_⟩
    rw [List.reverse_nil, List.nil_append, List.take_length]
    rfl
  | cons tdi sent ih =>
    have hnext : (tap.clock ⟨tdi, false⟩).state = .shift column := by
      rw [clock_state, hstate]
      rfl
    have hregister : (tap.clock ⟨tdi, false⟩).register column =
        (tap.register column).shifted tdi := by
      rw [clock_shifts _ hstate, change_self]
    obtain ⟨hstate', hregister'⟩ := ih hnext
    rw [List.map_cons, run_cons]
    refine ⟨hstate', ?_⟩
    have hlength : (tdi :: (tap.register column).stages).dropLast.length =
        (tap.register column).stages.length := by
      rw [List.length_dropLast, List.length_cons, Nat.add_sub_cancel]
    rw [hregister', hregister]
    simp only [ScanRegister.shifted, hlength, List.length_cons, List.reverse_cons]
    congr 1
    · rw [List.dropLast_eq_take, List.length_cons, Nat.add_sub_cancel, List.append_assoc,
        List.singleton_append, List.take_append, List.take_append, List.take_take,
        Nat.min_eq_left (Nat.sub_le ..)]
    · omega

/-- A whole scan, after some time in Run-Test/Idle: every bit is shifted in once, and the outputs have the last bit sent first. -/
theorem run_scan {tap : Tap} (hidle : tap.state = .runTestIdle) {column : Column}
    {before into : List Cycle} (hbefore : ∀ cycle ∈ before, cycle.tms = false)
    (hinto : into.map Cycle.tms = entry column) (sent : List Bool) (last exit update : Cycle)
    (hlast : last.tms = true) (hexit : exit.tms = true) (hupdate : update.tms = false)
    (hlength : (tap.register column).inputs.length = sent.length + 1) :
    let cycles := before ++ into ++ (sent.map fun tdi => ⟨tdi, false⟩) ++ [last, exit, update]
    (tap.run cycles).state = .runTestIdle ∧
      (tap.run cycles).register column = ⟨(tap.register column).inputs, last.tdi :: sent.reverse,
        last.tdi :: sent.reverse, (tap.register column).captures + 1,
        (tap.register column).shifts + (sent.length + 1)⟩ := by
  intro cycles
  obtain ⟨hentered, hcaptured⟩ := run_entry hidle hinto
  obtain ⟨hshifted, hsent⟩ := run_shifts hentered sent
  obtain ⟨hleft, hupdated⟩ := run_exit hshifted last exit update hlast hexit hupdate
  have hcycles : tap.run cycles =
      ((tap.run into).run (sent.map fun tdi => ⟨tdi, false⟩)).run [last, exit, update] := by
    rw [run_append, run_append, run_append, run_idle hidle hbefore]
  rw [hcycles]
  refine ⟨hleft, ?_⟩
  have hstages : (last.tdi :: (sent.reverse ++ (tap.register column).inputs).take
      (tap.register column).inputs.length).dropLast = last.tdi :: sent.reverse := by
    rw [List.dropLast_eq_take, List.length_cons, List.length_take, List.length_append,
      Nat.min_eq_left (Nat.le_add_left ..), Nat.add_sub_cancel, hlength, List.take_succ_cons,
      List.take_take, Nat.min_eq_left (Nat.le_succ _), ← List.length_reverse, List.take_left]
  rw [hupdated, hsent, hcaptured]
  simp only [ScanRegister.updated, ScanRegister.shifted, ScanRegister.captured, hstages]
  congr 1

end Tap

end TapController
