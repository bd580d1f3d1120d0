import Mast.Ftdi.BitBang

/-!
# What the bit-banged scans do

Both functions drive the controller through one capture and as many shifts as there are bits, and back to Run-Test/Idle. What they present and store goes wrong: the cursor of the bits sent is advanced twice in each turn, so that it runs out of the buffer from four bits on, and the cursor of the bits read never moves.
-/

namespace Mast

namespace Ftdi

open BitPacking TapController

/-! ### Turns of the loop -/

/-- The bits of the buffer that the loop presents, unless one of them is outside it. -/
def presented (bufData : List Byte) : (turns : Nat) → Cursor → Option (List Bool)
  | 0, _ => some []
  | turns + 1, cursor =>
    (readAt bufData cursor.curByte).bind fun byte =>
      (presented bufData turns cursor.next).map (byte.toNat.testBit cursor.curBit :: ·)

/-- The buffer for the bits read, after the loop has read `samples`. -/
def stored (store : Store) : (samples : List Bool) → Cursor → List Byte → Option (List Byte)
  | [], _, buf => some buf
  | sample :: samples, cursor, buf =>
    (store cursor sample buf).bind (stored store samples cursor.next)

/-- The pins after a turn that presents `bit`. -/
def turned (buf : Byte) (bit : Bool) : Byte := setTdi bit (clk (clk buf))

/-- The calls of the turns that present `bits`. -/
def turnCalls : Byte → (bits : List Bool) → List Event
  | _, [] => []
  | buf, bit :: bits =>
    .write (clk buf) :: .read :: .write (turned buf bit) :: turnCalls (turned buf bit) bits

/-- The level of TDO at the reads, by their number. -/
def Chip.Drives (chip : Chip) (levels : Nat → Bool) : Prop :=
  ∀ events, decide (chip.pins events &&& TDO ≠ 0) = levels (events.count .read)

section Turns

variable {chip : Chip} {levels : Nat → Bool} {bufData : List Byte} {store : Store}

theorem turnSample_eq (hlevels : chip.Drives levels) (s : Session) :
    turnSample chip s = levels (s.events.count .read) := by
  rw [turnSample, hlevels, List.count_append]
  rfl

theorem shiftBits_run_iff (hgood : chip.NeverFails) (hlevels : chip.Drives levels) {turns : Nat}
    {cursor : Cursor} {s s' : Session} :
    (shiftBits chip bufData store turns cursor).run s = .ok () s' ↔
      ∃ bits bufRead, presented bufData turns cursor = some bits ∧
        stored store ((List.range' (s.events.count .read) turns).map levels) cursor s.bufRead =
          some bufRead ∧
        s' = ⟨bits.foldl turned s.buf, bufRead, s.events ++ turnCalls s.buf bits⟩ := by
  induction turns generalizing cursor s with
  | zero =>
    constructor
    · intro hrun
      cases hrun
      refine ⟨[], _, rfl, rfl, ?_⟩
      rw [turnCalls, List.append_nil]
      rfl
    · rintro ⟨bits, bufRead, hbits, hstored, rfl⟩
      cases hbits
      cases hstored
      rw [turnCalls, List.append_nil]
      rfl
  | succ turns ih =>
    have hsample := turnSample_eq hlevels s
    rcases shiftBits_step hgood turns cursor s with ⟨⟨e, he⟩, hwhy⟩ | ⟨buf, byte, hstore, hbyte, hnext⟩
    · rw [he, hsample] at *
      constructor
      · intro hrun
        cases hrun
      · rintro ⟨bits, bufRead, hbits, hstored, -⟩
        rw [List.range'_succ, List.map_cons, stored] at hstored
        rw [presented] at hbits
        rcases hwhy with hstore | hbyte
        · rw [hstore] at hstored
          cases hstored
        · rw [hbyte] at hbits
          cases hbits
    · have hreads : (afterTurn byte cursor buf s).events.count .read =
          s.events.count .read + 1 := by
        rw [afterTurn, List.count_append]
        rfl
      rw [hnext, ih, hreads, List.range'_succ, List.map_cons]
      rw [hsample] at hstore
      simp only [presented, stored, hstore, hbyte, Option.bind_some]
      constructor
      · rintro ⟨bits, bufRead, hbits, hstored, rfl⟩
        refine ⟨_, bufRead, congrArg _ hbits, hstored, ?_⟩
        rw [afterTurn, List.append_assoc]
        rfl
      · rintro ⟨bits, bufRead, hbits, hstored, rfl⟩
        obtain ⟨rest, hrest, rfl⟩ := Option.map_eq_some_iff.mp hbits
        refine ⟨rest, bufRead, hrest, hstored, ?_⟩
        rw [afterTurn, List.append_assoc]
        rfl

end Turns

/-! ### Whole scans -/

def entryOf : Column → List (Byte → Byte)
  | .dr => sdrEntry
  | .ir => sirEntry

def storeOf (n : Nat) : Column → Store
  | .dr => storeAtCursor
  | .ir => storeByShifting n

def scan (chip : Chip) : Column → (bufData : List Byte) → (n : Nat) → Routine Int
  | .dr => myFtdiSdr chip
  | .ir => myFtdiSir chip

/-- The calls of a scan that presents `bits`. -/
def scanCalls (column : Column) (pins : Byte) (bits : List Bool) : List Event :=
  written pins (entryOf column) ++ (turnCalls (changed pins (entryOf column)) bits ++
    written (bits.foldl turned (changed pins (entryOf column))) leaving)

theorem written_reads (pins : Byte) (changes : List (Byte → Byte)) :
    (written pins changes).count .read = 0 := by
  induction changes generalizing pins with
  | nil => rfl
  | cons change changes ih =>
    rw [written, List.count_cons, ih]
    rfl

/-- A scan is its loop between two sequences of writes. -/
theorem scan_run_iff {chip : Chip} {levels : Nat → Bool} (hgood : chip.NeverFails)
    (hlevels : chip.Drives levels) {column : Column} {bufData bufRead : List Byte} {n : Nat}
    {pins : Byte} {session : Session} :
    (scan chip column bufData n).run ⟨pins, bufRead, []⟩ = .ok 0 session ↔
      ∃ bits bufRead', presented bufData n (Cursor.start n) = some bits ∧
        stored (storeOf n column) ((List.range n).map levels) (Cursor.start n) bufRead =
          some bufRead' ∧
        session = ⟨changed (bits.foldl turned (changed pins (entryOf column))) leaving, bufRead',
          scanCalls column pins bits⟩ := by
  have hscan : scan chip column bufData n = writeAll chip (entryOf column) >>= fun _ =>
      shiftBits chip bufData (storeOf n column) n (Cursor.start n) >>= fun _ =>
        writeAll chip leaving >>= fun _ => pure 0 := by
    cases column <;> rfl
  have hloop (s : Session) := @shiftBits_run_iff chip levels bufData (storeOf n column) hgood hlevels
    n (Cursor.start n) ⟨changed pins (entryOf column), bufRead, written pins (entryOf column)⟩ s
  simp only [written_reads, ← List.range_eq_range'] at hloop
  rw [hscan]
  simp only [EStateM.run_bind, writeAll_run, List.nil_append]
  cases hrun : (shiftBits chip bufData (storeOf n column) n (Cursor.start n)).run
      ⟨changed pins (entryOf column), bufRead, written pins (entryOf column)⟩ with
  | ok value shifted =>
    obtain ⟨bits, bufRead', hbits, hstored, rfl⟩ := (hloop shifted).mp hrun
    constructor
    · intro h
      cases h
      refine ⟨bits, bufRead', hbits, hstored, ?_⟩
      rw [scanCalls, List.append_assoc]
    · rintro ⟨bits', bufRead'', hbits', hstored', rfl⟩
      cases hbits.symm.trans hbits'
      cases hstored.symm.trans hstored'
      rw [scanCalls, ← List.append_assoc]
      rfl
  | error e shifted =>
    constructor
    · intro h
      cases h
    · rintro ⟨bits, bufRead', hbits, hstored, -⟩
      have hok := (hloop _).mpr ⟨bits, bufRead', hbits, hstored, rfl⟩
      rw [hrun] at hok
      cases hok

/-! ### Edges -/

/-- The pins between two scans: TCK and TMS are low. -/
def Quiet (pins : Byte) : Prop := pins &&& TCK = 0 ∧ pins &&& TMS = 0

instance (pins : Byte) : Decidable (Quiet pins) := inferInstanceAs (Decidable (_ ∧ _))

def tdiLevel (pins : Byte) : Bool := decide (pins &&& TDI ≠ 0)

theorem risingEdges_written (pins : Byte) (changes : List (Byte → Byte)) (rest : List Event) :
    risingEdges pins (written pins changes ++ rest) =
      risingEdges pins (written pins changes) ++ risingEdges (changed pins changes) rest := by
  induction changes generalizing pins with
  | nil => rfl
  | cons change changes ih =>
    have hrest : changed pins (change :: changes) = changed (change pins) changes := rfl
    rw [written, List.cons_append, risingEdges, risingEdges, ih, hrest]
    split
    · rfl
    · rfl

/-- Two edges in Run-Test/Idle, and those of the entry but the last. -/
def entryEdges (column : Column) (pins : Byte) : List Cycle :=
  ([false, false] ++ (Tap.entry column).dropLast).map fun tms => ⟨tdiLevel pins, tms⟩

theorem entry_edges (column : Column) {pins : Byte} (hquiet : Quiet pins) :
    risingEdges pins (written pins (entryOf column)) = entryEdges column pins ∧
      Quiet (changed pins (entryOf column)) ∧
      tdiLevel (changed pins (entryOf column)) = tdiLevel pins := by
  revert pins
  cases column <;> decide +kernel

theorem turn_edge {pins : Byte} (hquiet : Quiet pins) (bit : Bool) :
    pins &&& TCK = 0 ∧ clk pins &&& TCK ≠ 0 ∧ clk pins &&& TMS = 0 ∧
      tdiLevel (clk pins) = tdiLevel pins ∧ Quiet (turned pins bit) ∧
      tdiLevel (turned pins bit) = bit := by
  revert pins
  cases bit <;> decide +kernel

theorem leaving_edges {pins : Byte} (hquiet : Quiet pins) :
    risingEdges pins (written pins leaving) =
      [⟨tdiLevel pins, true⟩, ⟨tdiLevel pins, true⟩, ⟨tdiLevel pins, false⟩] := by
  revert pins
  decide +kernel

theorem turnCalls_edges {pins : Byte} (hquiet : Quiet pins) (bits : List Bool)
    (rest : List Event) :
    risingEdges pins (turnCalls pins bits ++ rest) =
        ((tdiLevel pins :: bits).dropLast.map fun tdi => ⟨tdi, false⟩) ++
          risingEdges (bits.foldl turned pins) rest ∧
      Quiet (bits.foldl turned pins) ∧
      (tdiLevel pins :: bits).getLast? = some (tdiLevel (bits.foldl turned pins)) := by
  induction bits generalizing pins with
  | nil => exact ⟨rfl, hquiet, rfl⟩
  | cons bit bits ih =>
    obtain ⟨hlow, hhigh, htms, htdi, hnext, hbit⟩ := turn_edge hquiet bit
    obtain ⟨hedges, hquiet', hlast⟩ := ih hnext
    refine ⟨?_, hquiet', ?_⟩
    · have hcycle : (⟨decide (clk pins &&& TDI ≠ 0), decide (clk pins &&& TMS ≠ 0)⟩ : Cycle) =
          ⟨tdiLevel pins, false⟩ := by
        rw [htms, ← htdi]
        rfl
      have hfall : ¬(clk pins &&& TCK = 0 ∧ turned pins bit &&& TCK ≠ 0) := fun h => hhigh h.1
      rw [turnCalls, List.cons_append, List.cons_append, List.cons_append, risingEdges,
        if_pos ⟨hlow, hhigh⟩, risingEdges, risingEdges, if_neg hfall, hedges, hcycle, hbit]
      rfl
    · rw [hbit] at hlast
      exact hlast

/-- What a scan that ends in order does to the port behind the pins. -/
theorem scanCalls_path {column : Column} {pins : Byte} (hquiet : Quiet pins) {bits : List Bool}
    (hbits : bits ≠ []) {tap : Tap} (hidle : tap.state = .runTestIdle)
    (hlength : (tap.register column).inputs.length = bits.length) :
    (tap.run (risingEdges pins (scanCalls column pins bits))).state = .runTestIdle ∧
      (tap.run (risingEdges pins (scanCalls column pins bits))).register column =
        ⟨(tap.register column).inputs, bits.reverse, bits.reverse,
          (tap.register column).captures + 1, (tap.register column).shifts + bits.length⟩ := by
  obtain ⟨sent, last, rfl⟩ := List.eq_nil_or_concat' bits |>.resolve_left hbits
  obtain ⟨hentry, hentered, htdi⟩ := entry_edges column hquiet
  obtain ⟨hturns, hturned, hlast⟩ := turnCalls_edges hentered (sent ++ [last])
    (written ((sent ++ [last]).foldl turned (changed pins (entryOf column))) leaving)
  have hlevel : tdiLevel ((sent ++ [last]).foldl turned (changed pins (entryOf column))) = last := by
    rw [← List.cons_append, List.getLast?_concat] at hlast
    exact (Option.some_injective _ hlast).symm
  let into := (Tap.entry column).dropLast.map (fun tms => (⟨tdiLevel pins, tms⟩ : Cycle)) ++
    [⟨tdiLevel pins, false⟩]
  have hedges : risingEdges pins (scanCalls column pins (sent ++ [last])) =
      [⟨tdiLevel pins, false⟩, ⟨tdiLevel pins, false⟩] ++ into ++
        (sent.map fun tdi => ⟨tdi, false⟩) ++ [⟨last, true⟩, ⟨last, true⟩, ⟨last, false⟩] := by
    rw [scanCalls, risingEdges_written, hentry, hturns, leaving_edges hturned, hlevel, htdi,
      ← List.cons_append, List.dropLast_concat, entryEdges]
    simp only [into, List.map_cons, List.append_assoc, List.cons_append, List.nil_append]
  have hinto : into.map Cycle.tms = Tap.entry column := by
    cases column <;> rfl
  have hbefore : ∀ cycle ∈ ([⟨tdiLevel pins, false⟩, ⟨tdiLevel pins, false⟩] : List Cycle),
      cycle.tms = false := by
    simp
  obtain ⟨hstate, hregister⟩ := Tap.run_scan hidle hbefore hinto sent ⟨last, true⟩ ⟨last, true⟩
    ⟨last, false⟩ rfl rfl rfl (by rw [hlength, List.length_append, List.length_singleton])
  rw [hedges]
  refine ⟨hstate, ?_⟩
  rw [hregister, List.reverse_append, List.length_append]
  rfl

end Ftdi

end Mast
