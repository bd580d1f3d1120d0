import Mast.Ftdi.Scans

/-!
# When the bit-banged scans shift the bits asked for

Both functions are asked to send the bits of a buffer, the last one first, and to return the bits read in the same order. They do for at most three bits, when all that is sent but the first bit and all that is read is zero.
-/

namespace Mast

namespace Ftdi

open BitPacking TapController

/-! ### The cursor of the bits sent -/

/-- The cursor is advanced twice in each turn, so that a byte lasts for five turns at most. -/
theorem presented_bound {bufData : List Byte} {turns : Nat} {cursor : Cursor} {bits : List Bool}
    (hread : cursor.readBit = 0) (hturns : 0 < turns)
    (hbits : presented bufData turns cursor = some bits) :
    (turns : Int) ≤ 5 * cursor.curByte + ((9 - cursor.curBit) / 2 : Nat) + 1 := by
  induction turns generalizing cursor bits with
  | zero => exact absurd hturns (Nat.lt_irrefl 0)
  | succ turns ih =>
    obtain ⟨curByte, curBit, readByte, readBit⟩ := cursor
    obtain rfl : readBit = 0 := hread
    obtain ⟨byte, hbyte, hrest⟩ := Option.bind_eq_some_iff.mp hbits
    obtain ⟨rest, hrest, -⟩ := Option.map_eq_some_iff.mp hrest
    have hinside : 0 ≤ curByte := by
      by_contra houtside
      rw [readAt, if_neg houtside] at hbyte
      cases hbyte
    rcases Nat.eq_zero_or_pos turns with rfl | hmore
    · simp only
      omega
    · by_cases hbit : curBit < 8
      · have hnext : Cursor.next ⟨curByte, curBit, readByte, 0⟩ =
            ⟨curByte, curBit + 2, readByte, 0⟩ := by
          simp only [Cursor.next, if_pos hbit, Nat.zero_lt_succ, if_true]
        rw [hnext] at hrest
        have hbound := ih rfl hmore hrest
        simp only at hbound ⊢
        omega
      · have hnext : Cursor.next ⟨curByte, curBit, readByte, 0⟩ =
            ⟨curByte - 1, 1, readByte, 0⟩ := by
          simp only [Cursor.next, if_neg hbit, Nat.zero_lt_succ, if_true]
        rw [hnext] at hrest
        have hbound := ih rfl hmore hrest
        simp only at hbound ⊢
        omega

theorem presented_few {bufData : List Byte} {n : Nat} {bits : List Bool} (hn : 0 < n)
    (hbits : presented bufData n (Cursor.start n) = some bits) : n ≤ 3 := by
  have hbound := presented_bound rfl hn hbits
  simp only [Cursor.start] at hbound
  omega

/-- The bits that come after the first one are not those of the buffer. -/
theorem presented_byte (byte : Byte) {n : Nat} (hn : 0 < n) (hfew : n ≤ 3) :
    ∃ bits, presented [byte] n (Cursor.start n) = some bits ∧ bits.length = n ∧
      (bits.reverse = (unpack [byte]).take n ↔ ∀ i < n - 1, (unpack [byte])[i]? = some false) := by
  obtain rfl | rfl | rfl : n = 1 ∨ n = 2 ∨ n = 3 := by omega
  · exact ⟨[byte.toNat.testBit 7], rfl, rfl, by revert byte; decide +kernel⟩
  · exact ⟨[byte.toNat.testBit 6, byte.toNat.testBit 8], rfl, rfl, by revert byte; decide +kernel⟩
  · exact ⟨[byte.toNat.testBit 5, byte.toNat.testBit 7, byte.toNat.testBit 9], rfl, rfl, by
      revert byte; decide +kernel⟩

/-! ### The bits read -/

theorem samples_zero_iff {levels : Nat → Bool} {n : Nat} :
    (List.range n).map levels = List.replicate n false ↔ ∀ i < n, levels i = false := by
  rw [List.eq_replicate_iff, List.length_map, List.length_range]
  simp only [true_and, List.forall_mem_map, List.mem_range]

/-- The bits read, from where they are asked for. -/
def placed (n : Nat) (bufRead : List Byte) : List (Option Bool) :=
  (List.range n).map fun i => (unpack bufRead)[n - 1 - i]?

/-- `my_ftdi_sir` has the bits read at the other end of the byte. -/
theorem stored_few {n : Nat} (hn : 0 < n) (hfew : n ≤ 3) {levels : Nat → Bool} {bufRead : List Byte}
    (hstored : stored (storeByShifting n) ((List.range n).map levels) (Cursor.start n) [0] =
      some bufRead)
    (hplaces : ∀ i < n, (unpack bufRead)[n - 1 - i]? = some (levels i)) :
    ∀ i < n, levels i = false := by
  have hplaced : (stored (storeByShifting n) ((List.range n).map levels) (Cursor.start n) [0]).map
      (placed n) = some (((List.range n).map levels).map some) := by
    rw [hstored, Option.map_some, placed, List.map_map]
    congr 1
    apply List.map_congr_left
    intro i hi
    exact hplaces i (List.mem_range.mp hi)
  rw [← samples_zero_iff]
  obtain rfl | rfl | rfl : n = 1 ∨ n = 2 ∨ n = 3 := by omega
  · have hsamples : (List.range 1).map levels = [levels 0] := rfl
    rw [hsamples] at hplaced ⊢
    generalize levels 0 = first at hplaced
    revert first
    decide
  · have hsamples : (List.range 2).map levels = [levels 0, levels 1] := rfl
    rw [hsamples] at hplaced ⊢
    generalize levels 0 = first, levels 1 = second at hplaced
    revert first second
    decide
  · have hsamples : (List.range 3).map levels = [levels 0, levels 1, levels 2] := rfl
    rw [hsamples] at hplaced ⊢
    generalize levels 0 = first, levels 1 = second, levels 2 = third at hplaced
    revert first second third
    decide

theorem stored_zeros {n : Nat} (hn : 0 < n) (hfew : n ≤ 3) {levels : Nat → Bool}
    (hlevels : ∀ i < n, levels i = false) (column : Column) :
    stored (storeOf n column) ((List.range n).map levels) (Cursor.start n) [0] = some [0] := by
  rw [samples_zero_iff.mpr hlevels]
  obtain rfl | rfl | rfl : n = 1 ∨ n = 2 ∨ n = 3 := by omega
  all_goals cases column <;> decide

/-! ### The law -/

section Law

variable (chip : Chip) (levels : Nat → Bool) (pins : Byte) (bufData : List Byte) (n : Nat)

/-- The scan ends in order, with the bit read as the `i`-th one at place `n - 1 - i`, and takes a port from Run-Test/Idle through one capture and one shift for each bit and back, its register having the bits of the buffer at its outputs then. -/
def ScansBits (column : Column) (bufRead : List Byte) : Prop :=
  ∃ session, (scan chip column bufData n).run ⟨pins, List.replicate (bytesFor n) 0, []⟩ =
      .ok 0 session ∧
    session.bufRead = bufRead ∧
    (∀ i < n, (unpack bufRead)[n - 1 - i]? = some (levels i)) ∧
    ∀ tap : Tap, tap.state = .runTestIdle → (tap.register column).inputs.length = n →
      (tap.run (risingEdges pins session.events)).state = .runTestIdle ∧
      ((tap.run (risingEdges pins session.events)).register column).captures =
        (tap.register column).captures + 1 ∧
      ((tap.run (risingEdges pins session.events)).register column).shifts =
        (tap.register column).shifts + n ∧
      ((tap.run (risingEdges pins session.events)).register column).outputs =
        (unpack bufData).take n

/-- Both functions do, and return the same. -/
def ScansAlike : Prop := ∃ bufRead, ∀ column, ScansBits chip levels pins bufData n column bufRead

end Law

theorem scansAlike_iff (chip : Chip) (levels : Nat → Bool) (pins : Byte) (bufData : List Byte)
    (n : Nat) (hn : 0 < n) (hbuffer : bufData.length = bytesFor n) (hgood : chip.NeverFails)
    (hlevels : chip.Drives levels) (hquiet : Quiet pins) :
    ScansAlike chip levels pins bufData n ↔
      n ≤ 3 ∧ (∀ i < n - 1, (unpack bufData)[i]? = some false) ∧ ∀ i < n, levels i = false := by
  constructor
  · rintro ⟨bufRead, hscans⟩
    obtain ⟨session, hrun, rfl, hplaces, hport⟩ := hscans .ir
    obtain ⟨bits, bufRead, hbits, hstored, rfl⟩ := (scan_run_iff hgood hlevels).mp hrun
    have hfew := presented_few hn hbits
    have hone : bytesFor n = 1 := by
      rw [bytesFor]
      omega
    obtain ⟨byte, rfl⟩ := List.length_eq_one_iff.mp (hbuffer.trans hone)
    obtain ⟨bits', hbits', hlength, hiff⟩ := presented_byte byte hn hfew
    cases hbits.symm.trans hbits'
    rw [hone] at hstored
    refine ⟨hfew, hiff.mp ?_, stored_few hn hfew hstored hplaces⟩
    -- any port with a register of that length shows what was presented
    have hinputs : (List.replicate n false).length = bits.length := by
      rw [List.length_replicate, hlength]
    have hne : bits ≠ [] := List.ne_nil_of_length_pos (by omega)
    let tap : Tap := ⟨.runTestIdle, fun _ => ⟨List.replicate n false, [], [], 0, 0⟩⟩
    have hregister := (@scanCalls_path .ir pins hquiet bits hne tap rfl hinputs).2
    have houtputs := (hport tap rfl List.length_replicate).2.2.2
    rw [hregister] at houtputs
    exact houtputs
  · rintro ⟨hfew, hzeros, hlow⟩
    have hone : bytesFor n = 1 := by
      rw [bytesFor]
      omega
    obtain ⟨byte, rfl⟩ := List.length_eq_one_iff.mp (hbuffer.trans hone)
    obtain ⟨bits, hbits, hlength, hiff⟩ := presented_byte byte hn hfew
    refine ⟨[0], fun column => ?_⟩
    have hrun := (@scan_run_iff chip levels hgood hlevels column [byte]
      (List.replicate (bytesFor n) 0) n pins _).mpr
        ⟨bits, [0], hbits, by rw [hone]; exact stored_zeros hn hfew hlow column, rfl⟩
    refine ⟨_, hrun, rfl, ?_, ?_⟩
    · intro i hi
      rw [hlow i hi]
      have hplace : n - 1 - i < 8 := by omega
      generalize n - 1 - i = place at hplace
      revert place
      decide
    · intro tap hidle hinputs
      have hne : bits ≠ [] := List.ne_nil_of_length_pos (by omega)
      obtain ⟨hstate, hregister⟩ := @scanCalls_path column pins hquiet bits hne tap hidle
        (hinputs.trans hlength.symm)
      refine ⟨hstate, ?_⟩
      rw [hregister, hlength]
      exact ⟨rfl, rfl, hiff.mpr hzeros⟩

/-- A chip that never fails, and whose TDO is low. -/
def silentChip : Chip := ⟨fun _ => 1, fun _ => 0, fun _ => 0⟩

theorem silentChip_drives : silentChip.Drives fun _ => false := by
  intro events
  change decide ((0 : Byte) &&& TDO ≠ 0) = false
  decide

theorem silentChip_neverFails : silentChip.NeverFails :=
  fun _ => ⟨Int.one_nonneg, Int.le_refl 0⟩

/-- Two bits, of which the one sent last is zero, come back as they are read. -/
theorem scansAlike_two_bits : ScansAlike silentChip (fun _ => false) 0 [0x40] 2 :=
  (scansAlike_iff silentChip (fun _ => false) 0 [0x40] 2 (by decide) rfl silentChip_neverFails
    silentChip_drives (by decide)).mpr ⟨by decide, by decide, fun _ _ => rfl⟩

/-- Eight bits: the first bit to send is looked for behind the buffer. -/
theorem not_scansAlike : ¬∀ (chip : Chip) (levels : Nat → Bool) (pins : Byte) (bufData : List Byte)
    (n : Nat), 0 < n → bufData.length = bytesFor n → chip.NeverFails → chip.Drives levels →
      Quiet pins → ScansAlike chip levels pins bufData n := by
  intro hall
  obtain ⟨bufRead, hscans⟩ := hall silentChip (fun _ => false) 0 [0xA5] 8 (by decide) rfl
    silentChip_neverFails silentChip_drives (by decide)
  obtain ⟨session, hrun, -⟩ := hscans .dr
  obtain ⟨bits, bufRead, hbits, -⟩ :=
    (scan_run_iff silentChip_neverFails silentChip_drives).mp hrun
  cases hbits

end Ftdi

end Mast
