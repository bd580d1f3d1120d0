import Mathlib
import Mast.Lib.BitPacking
import Mast.Lib.TapController

/-!
# Bit-banged scans

`my_ftdi_sir` and `my_ftdi_sdr` drive the pins of a test access port through an FTDI chip: they change the pins in a buffer, write the buffer, and read the pins at each bit. The two differ in how they enter the shift state and in how they store the bits read.
-/

namespace Mast

namespace Ftdi

open BitPacking TapController

def TCK : Byte := 0x01

def TDI : Byte := 0x02

def TDO : Byte := 0x04

def TMS : Byte := 0x08

def TRSTN : Byte := 0x10

/-- The calls of the library of the chip that were made, with the pins written. -/
inductive Event
  | write (pins : Byte)
  | read
  deriving DecidableEq

/-- What the chip answers, after the calls before. -/
structure Chip where
  writeStatus : List Event → Int
  readStatus : List Event → Int
  pins : List Event → Byte

/-- The pins in `jtag->buf`, the buffer that the caller passes for the bits read, and the calls made. -/
structure Session where
  buf : Byte
  bufRead : List Byte
  events : List Event

/-- How a function ends other than at its end. -/
inductive Exit
  | outsideBuffer
  | returned (status : Int)
  deriving DecidableEq

abbrev Routine := EStateM Exit Session

/-! ### Pins -/

/-- `my_ftdi_TMS_high`. -/
def tmsHigh (buf : Byte) : Byte := buf ||| TMS

/-- `my_ftdi_TMS_low`. -/
def tmsLow (buf : Byte) : Byte := buf &&& ~~~TMS

/-- `my_ftdi_TRSTN_high`. -/
def trstnHigh (buf : Byte) : Byte := buf ||| TRSTN

/-- `my_ftdi_clk`. -/
def clk (buf : Byte) : Byte := if buf &&& TCK ≠ 0 then ~~~TCK &&& buf else TCK ||| buf

def setTdi (level : Bool) (buf : Byte) : Byte := if level then buf ||| TDI else buf &&& ~~~TDI

section Chip

variable (chip : Chip)

def changePins (change : Byte → Byte) : Routine Unit :=
  modify fun session => { session with buf := change session.buf }

def ftdiWriteData : Routine Int := do
  let session ← get
  set { session with events := session.events ++ [Event.write session.buf] }
  return chip.writeStatus session.events

def ftdiReadPins : Routine (Int × Byte) := do
  let session ← get
  set { session with events := session.events ++ [Event.read] }
  return (chip.readStatus session.events, chip.pins session.events)

/-- Changes of the pins, each followed by a write whose status is not looked at. -/
def writeAll : List (Byte → Byte) → Routine Unit
  | [] => pure ()
  | change :: changes => do
    changePins change
    discard (ftdiWriteData chip)
    writeAll changes

/-! ### Bits -/

structure Cursor where
  curByte : Int
  curBit : Nat
  readByte : Nat
  readBit : Nat
  deriving DecidableEq

def Cursor.start (n : Nat) : Cursor := ⟨n / 8, 8 - n % 8, 0, 0⟩

/-- The two updates at the end of a turn; the second one advances the cursor of the first. -/
def Cursor.next (cursor : Cursor) : Cursor :=
  let cursor :=
    if cursor.curBit < 8 then { cursor with curBit := cursor.curBit + 1 }
    else { cursor with curByte := cursor.curByte - 1, curBit := 0 }
  if cursor.readBit < 8 then { cursor with curBit := cursor.curBit + 1 }
  else { cursor with readBit := 0, readByte := cursor.readByte + 1 }

/-- `buf[i]`, unless it is outside the buffer. -/
def readAt (buf : List Byte) (i : Int) : Option Byte := if 0 ≤ i then buf[i.toNat]? else none

/-- The loop of `shift_char`, over the bytes below `count`. -/
def shiftCharFrom (k : Nat) (last : Byte) : (count : Nat) → (tmp : Bool) → List Byte →
    Option (List Byte)
  | 0, _, buf => some buf
  | i + 1, tmp, buf =>
    match buf[i]? with
    | none => none
    | some byte =>
      let carry := byte.getLsbD 0
      let mask := if i ≠ k then 0x80 else last
      let byte := byte >>> 1
      shiftCharFrom k last i carry (buf.set i (if tmp then byte ||| mask else byte &&& ~~~mask))

def shiftChar (n : Nat) (c : Bool) (buf : List Byte) : Option (List Byte) :=
  let k := if n % 8 ≠ 0 then n / 8 else n / 8 - 1
  let tab : List Byte := [0x80, 0x01, 0x02, 0x04, 0x08, 0x10, 0x20, 0x40]
  shiftCharFrom k (tab.getD (n % 8) 0) (k + 1) c buf

/-- How a bit read is stored at the cursors. -/
abbrev Store := Cursor → Bool → List Byte → Option (List Byte)

/-- The store of `my_ftdi_sir`. -/
def storeByShifting (n : Nat) : Store := fun _ carry buf => shiftChar n carry buf

/-- The store of `my_ftdi_sdr`. -/
def storeAtCursor : Store := fun cursor carry buf =>
  match buf[cursor.readByte]? with
  | none => none
  | some byte =>
    let bit : Byte := 0x1 <<< (7 - cursor.readBit)
    some (buf.set cursor.readByte (if carry then byte ||| bit else byte &&& ~~~bit))

/-- A write or a read that fails ends the function. -/
def checkStatus (f : Int) : Routine Unit := if f < 0 then throw (.returned (-1)) else pure ()

def storeBit (store : Store) (cursor : Cursor) (carry : Bool) : Routine Unit := do
  let session ← get
  match store cursor carry session.bufRead with
  | none => throw .outsideBuffer
  | some bufRead => set { session with bufRead }

/-- TDI takes the level of the bit at the cursors. -/
def presentBit (bufData : List Byte) (cursor : Cursor) : Routine Unit :=
  match readAt bufData cursor.curByte with
  | none => throw .outsideBuffer
  | some byte => changePins (setTdi (byte.toNat.testBit cursor.curBit))

def shiftBits (bufData : List Byte) (store : Store) : (turns : Nat) → Cursor → Routine Unit
  | 0, _ => pure ()
  | turns + 1, cursor => do
    changePins clk
    checkStatus (← ftdiWriteData chip)
    let (f, pins) ← ftdiReadPins chip
    checkStatus f
    storeBit store cursor (pins &&& TDO ≠ 0)
    changePins clk
    presentBit bufData cursor
    checkStatus (← ftdiWriteData chip)
    shiftBits bufData store turns cursor.next

/-! ### Scans -/

/-- From Run-Test/Idle to the edge before the shift state, in the instruction column. -/
def sirEntry : List (Byte → Byte) :=
  [fun buf => trstnHigh (clk buf), clk, clk, fun buf => tmsHigh (clk buf), clk, clk, clk,
    fun buf => tmsLow (clk buf), clk, clk]

/-- The same in the data column. -/
def sdrEntry : List (Byte → Byte) :=
  [fun buf => trstnHigh (clk buf), clk, clk, fun buf => tmsHigh (clk buf), clk,
    fun buf => clk (tmsLow buf), clk, clk]

/-- The last shift and the way back. -/
def leaving : List (Byte → Byte) :=
  [fun buf => tmsHigh (clk buf), clk, clk, clk, fun buf => tmsLow (clk buf), clk]

def myFtdiSir (bufData : List Byte) (n : Nat) : Routine Int := do
  writeAll chip sirEntry
  shiftBits chip bufData (storeByShifting n) n (Cursor.start n)
  writeAll chip leaving
  return 0

def myFtdiSdr (bufData : List Byte) (n : Nat) : Routine Int := do
  writeAll chip sdrEntry
  shiftBits chip bufData storeAtCursor n (Cursor.start n)
  writeAll chip leaving
  return 0

end Chip

/-! ### What the pins mean -/

/-- The rising edges of TCK among the writes, the pins before the first write being given. -/
def risingEdges : Byte → List Event → List Cycle
  | _, [] => []
  | before, .read :: events => risingEdges before events
  | before, .write pins :: events =>
    if before &&& TCK = 0 ∧ pins &&& TCK ≠ 0 then
      ⟨decide (pins &&& TDI ≠ 0), decide (pins &&& TMS ≠ 0)⟩ :: risingEdges pins events
    else risingEdges pins events

/-- The level of TDO at each read, given the calls made before. -/
def samples (chip : Chip) : (before : List Event) → List Event → List Bool
  | _, [] => []
  | before, .write pins :: events => samples chip (before ++ [.write pins]) events
  | before, .read :: events =>
    decide (chip.pins before &&& TDO ≠ 0) :: samples chip (before ++ [.read]) events

/-! ### Runs -/

def Chip.NeverFails (chip : Chip) : Prop :=
  ∀ events, 0 ≤ chip.writeStatus events ∧ 0 ≤ chip.readStatus events

def written : Byte → List (Byte → Byte) → List Event
  | _, [] => []
  | buf, change :: changes => .write (change buf) :: written (change buf) changes

def changed (buf : Byte) (changes : List (Byte → Byte)) : Byte :=
  changes.foldl (fun buf change => change buf) buf

section Runs

variable {chip : Chip} {bufData : List Byte} {store : Store}

theorem writeAll_run (changes : List (Byte → Byte)) (s : Session) :
    (writeAll chip changes).run s =
      .ok () ⟨changed s.buf changes, s.bufRead, s.events ++ written s.buf changes⟩ := by
  induction changes generalizing s with
  | nil =>
    rw [written, List.append_nil]
    rfl
  | cons change changes ih =>
    have hstep : (writeAll chip (change :: changes)).run s = (writeAll chip changes).run
        ⟨change s.buf, s.bufRead, s.events ++ [.write (change s.buf)]⟩ := rfl
    rw [hstep, ih, List.append_assoc]
    rfl

/-- What one turn reads, and the pins that it leaves. -/
def turnSample (chip : Chip) (s : Session) : Bool :=
  decide (chip.pins (s.events ++ [.write (clk s.buf)]) &&& TDO ≠ 0)

def turnPins (byte : Byte) (cursor : Cursor) (s : Session) : Byte :=
  setTdi (byte.toNat.testBit cursor.curBit) (clk (clk s.buf))

def afterTurn (byte : Byte) (cursor : Cursor) (bufRead : List Byte) (s : Session) : Session :=
  ⟨turnPins byte cursor s, bufRead,
    s.events ++ [.write (clk s.buf), .read, .write (turnPins byte cursor s)]⟩

theorem checkStatus_run {f : Int} (hf : 0 ≤ f) (s : Session) :
    (checkStatus f).run s = .ok () s := by
  rw [checkStatus, if_neg (Int.not_lt.mpr hf)]
  rfl

theorem changePins_run (change : Byte → Byte) (s : Session) :
    (changePins change).run s = .ok () ⟨change s.buf, s.bufRead, s.events⟩ := rfl

theorem ftdiWriteData_run (s : Session) : (ftdiWriteData chip).run s =
    .ok (chip.writeStatus s.events) ⟨s.buf, s.bufRead, s.events ++ [.write s.buf]⟩ := rfl

theorem ftdiReadPins_run (s : Session) : (ftdiReadPins chip).run s =
    .ok (chip.readStatus s.events, chip.pins s.events)
      ⟨s.buf, s.bufRead, s.events ++ [.read]⟩ := rfl

theorem storeBit_none {cursor : Cursor} {carry : Bool} {s : Session}
    (hstore : store cursor carry s.bufRead = none) :
    (storeBit store cursor carry).run s = .error .outsideBuffer s := by
  simp only [storeBit, EStateM.run_bind, EStateM.run_get, hstore]
  rfl

theorem storeBit_some {cursor : Cursor} {carry : Bool} {s : Session} {bufRead : List Byte}
    (hstore : store cursor carry s.bufRead = some bufRead) :
    (storeBit store cursor carry).run s = .ok () ⟨s.buf, bufRead, s.events⟩ := by
  simp only [storeBit, EStateM.run_bind, EStateM.run_get, hstore]
  rfl

theorem presentBit_none {cursor : Cursor} (hbyte : readAt bufData cursor.curByte = none)
    (s : Session) : (presentBit bufData cursor).run s = .error .outsideBuffer s := by
  rw [presentBit, hbyte]
  rfl

theorem presentBit_some {cursor : Cursor} {byte : Byte}
    (hbyte : readAt bufData cursor.curByte = some byte) (s : Session) :
    (presentBit bufData cursor).run s =
      .ok () ⟨setTdi (byte.toNat.testBit cursor.curBit) s.buf, s.bufRead, s.events⟩ := by
  rw [presentBit, hbyte]
  rfl

/-- One turn of the loop ends outside a buffer, or goes on with the next turn. -/
theorem shiftBits_step (hgood : chip.NeverFails) (turns : Nat) (cursor : Cursor) (s : Session) :
    (∃ s', (shiftBits chip bufData store (turns + 1) cursor).run s = .error .outsideBuffer s') ∧
        (store cursor (turnSample chip s) s.bufRead = none ∨ readAt bufData cursor.curByte = none) ∨
      ∃ bufRead byte, store cursor (turnSample chip s) s.bufRead = some bufRead ∧
        readAt bufData cursor.curByte = some byte ∧
        (shiftBits chip bufData store (turns + 1) cursor).run s =
          (shiftBits chip bufData store turns cursor.next).run (afterTurn byte cursor bufRead s) := by
  have hstart : (shiftBits chip bufData store (turns + 1) cursor).run s =
      (storeBit store cursor (turnSample chip s) >>= fun _ => changePins clk >>= fun _ =>
        presentBit bufData cursor >>= fun _ => ftdiWriteData chip >>= fun f =>
          checkStatus f >>= fun _ => shiftBits chip bufData store turns cursor.next).run
        ⟨clk s.buf, s.bufRead, s.events ++ [.write (clk s.buf)] ++ [.read]⟩ := by
    simp only [shiftBits, EStateM.run_bind, changePins_run, ftdiWriteData_run, ftdiReadPins_run,
      checkStatus_run (hgood _).1, checkStatus_run (hgood _).2]
    rfl
  rw [hstart, EStateM.run_bind]
  cases hstore : store cursor (turnSample chip s) s.bufRead with
  | none =>
    rw [storeBit_none (s := ⟨clk s.buf, s.bufRead, _⟩) hstore]
    exact .inl ⟨⟨_, rfl⟩, .inl rfl⟩
  | some bufRead =>
    rw [storeBit_some (s := ⟨clk s.buf, s.bufRead, _⟩) hstore]
    simp only [EStateM.run_bind, changePins_run]
    cases hbyte : readAt bufData cursor.curByte with
    | none =>
      rw [presentBit_none hbyte]
      exact .inl ⟨⟨_, rfl⟩, .inr rfl⟩
    | some byte =>
      refine .inr ⟨bufRead, byte, rfl, rfl, ?_⟩
      rw [presentBit_some hbyte]
      simp only [ftdiWriteData_run, checkStatus_run (hgood _).1, List.append_assoc]
      rfl

end Runs

end Ftdi

end Mast
