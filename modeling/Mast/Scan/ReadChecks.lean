import Mast.Scan.ExpectedFromSut
import Mast.Scan.Selects

/-!
# What a read checks

The registers compare what they receive with the masks that a read leaves in them. These are the bits the read names exactly when no mask of an earlier read interferes.
-/

namespace Mast

open BinaryVector (IndexedRange)
open Outcome

namespace VirtualRegister

section Checks

variable {v : VirtualRegister} {s s' : SystemModel} {ordering : BitsOrdering}
  {bitsCount : Nat → Nat} {sequence dontCareMask : Bits}

/-- Received bits differ from the expected ones on a bit of a register that the read names and cares for. -/
def Differs (v : VirtualRegister) (ordering : BitsOrdering) (bitsCount : Nat → Nat)
    (sequence dontCareMask : Bits) (reg : Nat) (received : Bits) : Prop :=
  ∃ k i : Nat, (v.namedBits ordering bitsCount)[k]? = some (reg, i) ∧ Cares dontCareMask k ∧
    received[i]? ≠ sequence[k]?

/-- The read succeeds, and whatever a register receives then it counts a mismatch exactly when the bits it was asked to check differ. -/
def ChecksNamedBits (v : VirtualRegister) (ordering : BitsOrdering) (bitsCount : Nat → Nat)
    (sequence dontCareMask : Bits) (s : SystemModel) : Prop :=
  ∃ s', v.setExpectedFromSut sequence dontCareMask s = .ok s' ∧
    ∀ reg ∈ v.identifiers, ∀ received : Bits, received.length = bitsCount reg →
      ∃ r', ((s'.registers reg).setCheckExpected true).setFromSut received = .ok r' ∧
        (v.Differs ordering bitsCount sequence dontCareMask reg received →
          r'.mismatches = ((s.registers reg).mismatches + 1) % uint32Size) ∧
        (¬v.Differs ordering bitsCount sequence dontCareMask reg received →
          r'.mismatches = (s.registers reg).mismatches)

/-- No mask that a register has kept interferes: without a mask it cares for exactly the bits that are named, with one for no other bit. -/
def MasksAgree (v : VirtualRegister) (ordering : BitsOrdering) (bitsCount : Nat → Nat)
    (dontCareMask : Bits) (s : SystemModel) : Prop :=
  ∀ reg ∈ v.identifiers, ∀ i, i < bitsCount reg →
    if dontCareMask = [] then
      (Cares (s.registers reg).dontCareMask i ↔ (reg, i) ∈ v.namedBits ordering bitsCount)
    else (reg, i) ∉ v.namedBits ordering bitsCount →
      (s.registers reg).dontCareMask[i]? ≠ some true

theorem masksAgree_iff :
    v.MasksAgree ordering bitsCount dontCareMask s ↔
      ∀ reg ∈ v.identifiers, ∀ i, i < bitsCount reg →
        (CaresAfter v ordering bitsCount dontCareMask s reg i ↔
          ∃ k : Nat, (v.namedBits ordering bitsCount)[k]? = some (reg, i) ∧ Cares dontCareMask k) := by
  unfold MasksAgree CaresAfter
  refine forall_congr' fun reg => forall_congr' fun _ => forall_congr' fun i => forall_congr' fun _ => ?_
  by_cases hnone : dontCareMask = []
  · have hcares (k : Nat) : Cares dontCareMask k := .inl hnone
    simp only [if_pos hnone, hcares, and_true]
    rw [List.mem_iff_getElem?]
  · have hcares (k : Nat) : Cares dontCareMask k ↔ dontCareMask[k]? = some true :=
      or_iff_right hnone
    simp only [if_neg hnone, hcares]
    constructor
    · intro hother
      exact or_iff_left fun ⟨hout, hcared⟩ => hother hout hcared
    · intro hsame hout hcared
      obtain ⟨k, hk, -⟩ := hsame.mp (.inr ⟨hout, hcared⟩)
      exact hout (List.mem_of_getElem? hk)

theorem Proxies.reads_of_mem (hv : v.Proxies s ordering bitsCount) {reg : Nat}
    (hreg : reg ∈ v.identifiers) : (s.registers reg).Reads (bitsCount reg) := by
  obtain ⟨slice, hslice, rfl⟩ := List.mem_map.mp hreg
  exact hv.reads slice hslice

theorem masksAgree_of_checks (hv : v.Proxies s ordering bitsCount)
    (hsequence : sequence.length = (v.namedBits ordering bitsCount).length)
    (hsize : sequence.length < uint32Size)
    (hmask : dontCareMask = [] ∨ dontCareMask.length = sequence.length)
    (hchecks : v.ChecksNamedBits ordering bitsCount sequence dontCareMask s) :
    v.MasksAgree ordering bitsCount dontCareMask s := by
  obtain ⟨s', hrun, hv', hmismatches, hexpected, hcares⟩ :=
    setExpectedFromSut_ok hv hsequence hsize hmask
  obtain ⟨s'', hrun', hchecks⟩ := hchecks
  obtain rfl := Except.ok.inj (hrun.symm.trans hrun')
  rw [masksAgree_iff]
  intro reg hreg i hi
  have hreads := hv'.reads_of_mem hreg
  -- a register that receives what it expects, but for one bit
  have hin : i < (s'.registers reg).expectedFromSut.length := hreads.expected.symm ▸ hi
  have hlength : ((s'.registers reg).expectedFromSut.set i
      (!(s'.registers reg).expectedFromSut[i])).length = bitsCount reg := by
    rw [List.length_set, hreads.expected]
  have hother (i' : Nat) : ((s'.registers reg).expectedFromSut.set i
      (!(s'.registers reg).expectedFromSut[i]))[i']? ≠
        (s'.registers reg).expectedFromSut[i']? ↔ i' = i := by
    by_cases hsame : i' = i
    · subst hsame
      simp [hin]
    · simp [List.getElem?_set_ne (Ne.symm hsame), hsame]
  obtain ⟨r', hr', hcounts, hcountsNot⟩ := hchecks reg hreg _ hlength
  obtain ⟨r'', hr'', hmismatch, hmismatchNot⟩ := hreads.setFromSut hlength
  obtain rfl := Except.ok.inj (hr'.symm.trans hr'')
  simp only [hother, exists_eq_right, hmismatches] at hmismatch hmismatchNot
  have hdiffers : v.Differs ordering bitsCount sequence dontCareMask reg
      ((s'.registers reg).expectedFromSut.set i (!(s'.registers reg).expectedFromSut[i])) ↔
        ∃ k : Nat, (v.namedBits ordering bitsCount)[k]? = some (reg, i) ∧ Cares dontCareMask k := by
    constructor
    · intro ⟨k, i', hk, hcared, hdifferent⟩
      rw [← hexpected reg i' k hk, hother] at hdifferent
      exact ⟨k, hdifferent ▸ hk, hcared⟩
    · intro ⟨k, hk, hcared⟩
      refine ⟨k, i, hk, hcared, ?_⟩
      rw [← hexpected reg i k hk, hother]
  have hcounted : ((s.registers reg).mismatches + 1) % uint32Size ≠ (s.registers reg).mismatches := by
    unfold uint32Size
    omega
  rw [← hcares reg hreg i hi, ← hdiffers]
  constructor
  · intro hcared
    by_contra hsame
    exact hcounted ((hmismatch hcared).symm.trans (hcountsNot hsame))
  · intro hdifferent
    by_contra hnot
    exact hcounted ((hcounts hdifferent).symm.trans (hmismatchNot hnot))

theorem checks_of_masksAgree (hv : v.Proxies s ordering bitsCount)
    (hsequence : sequence.length = (v.namedBits ordering bitsCount).length)
    (hsize : sequence.length < uint32Size)
    (hmask : dontCareMask = [] ∨ dontCareMask.length = sequence.length)
    (hagree : v.MasksAgree ordering bitsCount dontCareMask s) :
    v.ChecksNamedBits ordering bitsCount sequence dontCareMask s := by
  obtain ⟨s', hrun, hv', hmismatches, hexpected, hcares⟩ :=
    setExpectedFromSut_ok hv hsequence hsize hmask
  rw [masksAgree_iff] at hagree
  refine ⟨s', hrun, fun reg hreg received hreceived => ?_⟩
  have hreads := hv'.reads_of_mem hreg
  obtain ⟨r', hr', hmismatch, hmismatchNot⟩ := hreads.setFromSut hreceived
  have hlength := hreads.expected
  have hdiffers : (∃ i : Nat, Cares (s'.registers reg).dontCareMask i ∧
      received[i]? ≠ (s'.registers reg).expectedFromSut[i]?) ↔
        v.Differs ordering bitsCount sequence dontCareMask reg received := by
    have hin {i : Nat} (hdifferent : received[i]? ≠ (s'.registers reg).expectedFromSut[i]?) :
        i < bitsCount reg := by
      by_contra hout
      rw [List.getElem?_eq_none (by omega), List.getElem?_eq_none (by omega)] at hdifferent
      exact hdifferent rfl
    constructor
    · intro ⟨i, hcared, hdifferent⟩
      have hi := hin hdifferent
      obtain ⟨k, hk, hcared⟩ := (hagree reg hreg i hi).mp ((hcares reg hreg i hi).mp hcared)
      exact ⟨k, i, hk, hcared, hexpected reg i k hk ▸ hdifferent⟩
    · intro ⟨k, i, hk, hcared, hdifferent⟩
      rw [← hexpected reg i k hk] at hdifferent
      have hi := hin hdifferent
      exact ⟨i, (hcares reg hreg i hi).mpr ((hagree reg hreg i hi).mpr ⟨k, hk, hcared⟩),
        hdifferent⟩
  rw [hdiffers, hmismatches] at hmismatch hmismatchNot
  exact ⟨r', hr', hmismatch, hmismatchNot⟩

/-- A read checks the bits it names exactly when the masks that earlier reads left in the registers agree with it. -/
theorem checksNamedBits_iff (hv : v.Proxies s ordering bitsCount)
    (hsequence : sequence.length = (v.namedBits ordering bitsCount).length)
    (hsize : sequence.length < uint32Size)
    (hmask : dontCareMask = [] ∨ dontCareMask.length = sequence.length) :
    v.ChecksNamedBits ordering bitsCount sequence dontCareMask s ↔
      v.MasksAgree ordering bitsCount dontCareMask s :=
  ⟨masksAgree_of_checks hv hsequence hsize hmask, checks_of_masksAgree hv hsequence hsize hmask⟩

end Checks

end VirtualRegister

/-! ### Earlier reads -/

theorem Register.create_reads (name : String) {bypassSequence : Bits} (holdValue : Bool)
    (bitsOrdering : BitsOrdering) (hvectors : bypassSequence.length + 7 < uint32Size) :
    (Register.create name bypassSequence holdValue bitsOrdering).Reads bypassSequence.length where
  bitsCount := rfl
  expected := rfl
  mask := .inl rfl
  fits _ hsequence := .inr hsequence
  vectors := hvectors

/-- A register that is no black box can be read at its width afterwards as before. -/
def Register.ReadsOn (r r' : Register) : Prop :=
  ∀ width, r.isBlackBox = false → r.Reads width →
    r'.isBlackBox = false ∧ r'.Reads width ∧ r'.bitsOrdering = r.bitsOrdering

namespace Register

variable {r r' : Register} {sequence dontCareMask : Bits}

theorem ReadsOn.of_mask (hbox : r'.isBlackBox = r.isBlackBox) (hsize : r'.fixedSize = r.fixedSize)
    (hordering : r'.bitsOrdering = r.bitsOrdering)
    (hmask : r'.dontCareMask = r.dontCareMask ∨ r'.dontCareMask = [] ∨
      r'.dontCareMask.length = r'.expectedFromSut.length) : r.ReadsOn r' := by
  intro width hno hr
  have hno' : r'.isBlackBox = false := hbox.trans hno
  have hwidth : r.fixedSize = width := (r.bypass_length hno).symm.trans hr.bitsCount
  have hexpected : r'.expectedFromSut.length = width := by
    rw [r'.expectedFromSut_length hno', hsize, hwidth]
  refine ⟨hno', ⟨?_, hexpected, ?_, fun sequence h => .inr ?_, hr.vectors⟩, hordering⟩
  · rw [Register.bitsCount, r'.bypass_length hno', hsize, hwidth]
  · rcases hmask with hsame | hnone | hlength
    · rw [hsame]
      exact hr.mask
    · exact .inl hnone
    · exact .inr (hlength.trans hexpected)
  · rw [h, hsize, hwidth]

theorem setExpectedSequence_readsOn (h : r.setExpectedSequence sequence = .ok r') :
    r.ReadsOn r' := by
  unfold setExpectedSequence at h
  split at h
  · obtain rfl := Except.ok.inj h
    exact .of_mask rfl rfl rfl (.inl rfl)
  · cases h

theorem setExpectedFromSut_readsOn (h : r.setExpectedFromSut sequence dontCareMask = .ok r') :
    r.ReadsOn r' := by
  unfold setExpectedFromSut at h
  split at h
  · cases h
  · rename_i hsizes
    split at h
    · obtain rfl := Except.ok.inj h
      refine .of_mask rfl rfl rfl (.inr ?_)
      by_cases hnone : dontCareMask = []
      · exact .inl hnone
      · exact .inr (not_not.mp fun hne => hsizes ⟨hnone, hne⟩)
    · cases h

theorem setFromSut_readsOn (h : r.setFromSut sequence = .ok r') : r.ReadsOn r' := by
  unfold setFromSut at h
  generalize (if r.mustCheckExpected then
    (sequence.compareEqualTo r.expectedFromSut r.dontCareMask).map (!·) else .ok false) = mismatch at h
  cases mismatch with
  | error fault => cases h
  | ok mismatch =>
    dsimp only at h
    split at h
    · obtain rfl := Except.ok.inj h
      exact .of_mask rfl rfl rfl (.inl rfl)
    · cases h

end Register

namespace SystemModel

/-- Every register can be read afterwards as before. -/
def ReadsOn (s s' : SystemModel) : Prop := ∀ reg, (s.registers reg).ReadsOn (s'.registers reg)

variable {s : SystemModel} {reg : Nat} {r : Register}

theorem ReadsOn.refl (s : SystemModel) : ReadsOn s s := fun _ _ hno hr => ⟨hno, hr, rfl⟩

instance : IsTrans SystemModel ReadsOn where
  trans _ _ _ hfirst hsecond reg width hno hr := by
    obtain ⟨hno', hr', hordering⟩ := hfirst reg width hno hr
    obtain ⟨hno'', hr'', hordering'⟩ := hsecond reg width hno' hr'
    exact ⟨hno'', hr'', hordering'.trans hordering⟩

theorem setRegister_readsOn (hr : (s.registers reg).ReadsOn r) : ReadsOn s (s.setRegister reg r) := by
  intro other
  by_cases hother : other = reg
  · rw [hother, setRegister_self]
    exact hr
  · rw [setRegister_other _ _ hother]
    exact ReadsOn.refl s other

end SystemModel

open SystemModel (ReadsOn)

namespace VirtualRegister

variable {v : VirtualRegister}

section Keeps

variable {R : SystemModel → SystemModel → Prop} [IsTrans SystemModel R]

theorem updateRegisters_keeps (hrefl : ∀ s, R s s)
    {registerUpdater : RegisterSlice → IndexedRange → SystemModel → Except Fault SystemModel}
    (hupdater : ∀ slice valueRange s, Keeps R s (registerUpdater slice valueRange s))
    (s : SystemModel) : Keeps R s (v.updateRegisters registerUpdater s) := by
  have heach (ordering : BitsOrdering) (v : VirtualRegister) (index : Nat) (s : SystemModel) :
      Keeps R s (updateEach registerUpdater ordering v index s) := by
    induction v generalizing index s with
    | nil => exact Keeps.ok (hrefl s)
    | cons slice rest ih =>
      refine Keeps.read fun width _ => ?_
      exact Keeps.bind (hupdater slice _ s) fun s' _ => ih _ s'
  unfold updateRegisters
  refine Keeps.ite (fun _ => Keeps.error _) fun _ => Keeps.ite (fun _ => heach _ _ _ s) fun _ => ?_
  exact Keeps.read fun count _ => heach _ _ _ s

theorem setExpectedFromSut_keeps (hrefl : ∀ s, R s s)
    (hsequence : ∀ s reg sequence r, (s.registers reg).setExpectedSequence sequence = .ok r →
      R s (s.setRegister reg r))
    (hmasked : ∀ s reg sequence dontCareMask r,
      (s.registers reg).setExpectedFromSut sequence dontCareMask = .ok r →
      R s (s.setRegister reg r)) (sequence dontCareMask : Bits) (s : SystemModel) :
    Keeps R s (v.setExpectedFromSut sequence dontCareMask s) := by
  unfold setExpectedFromSut
  refine Keeps.ite (fun _ => ?_) fun _ => Keeps.ite (fun _ => Keeps.error _) fun _ => ?_
  · refine updateRegisters_keeps hrefl (fun slice valueRange s => ?_) s
    refine Keeps.read fun slicedValue _ => Keeps.read fun regValue _ => Keeps.read fun reg hreg => ?_
    exact Keeps.ok (hsequence s slice.reg regValue reg hreg)
  · refine updateRegisters_keeps hrefl (fun slice valueRange s => ?_) s
    refine Keeps.read fun regMask _ => Keeps.read fun slicedExpected _ => Keeps.read fun slicedMask _ =>
      Keeps.read fun regExpected _ => Keeps.read fun regMask _ => Keeps.read fun reg hreg => ?_
    exact Keeps.ok (hmasked s slice.reg regExpected regMask reg hreg)

end Keeps

theorem setExpectedFromSut_readsOn (sequence dontCareMask : Bits) (s : SystemModel) :
    Keeps ReadsOn s (v.setExpectedFromSut sequence dontCareMask s) := by
  refine setExpectedFromSut_keeps .refl ?_ ?_ sequence dontCareMask s
  · intro s reg sequence r hset
    exact SystemModel.setRegister_readsOn (Register.setExpectedSequence_readsOn hset)
  · intro s reg sequence dontCareMask r hset
    exact SystemModel.setRegister_readsOn (Register.setExpectedFromSut_readsOn hset)

end VirtualRegister

/-- The calls of a read, of a scan and of a reset. -/
inductive ReadCall
  | setExpectedFromSut (v : VirtualRegister) (sequence dontCareMask : Bits)
  | registerExpectedFromSut (reg : Nat) (sequence dontCareMask : Bits)
  | setCheckExpected (reg : Nat) (checkExpected : Bool)
  | setFromSut (reg : Nat) (sequence : Bits)
  | reset (reg : Nat)

namespace ReadCall

def run (s : SystemModel) : ReadCall → Except Fault SystemModel
  | .setExpectedFromSut v sequence dontCareMask => v.setExpectedFromSut sequence dontCareMask s
  | .registerExpectedFromSut reg sequence dontCareMask =>
    ((s.registers reg).setExpectedFromSut sequence dontCareMask).map (s.setRegister reg)
  | .setCheckExpected reg checkExpected =>
    .ok (s.setRegister reg ((s.registers reg).setCheckExpected checkExpected))
  | .setFromSut reg sequence => ((s.registers reg).setFromSut sequence).map (s.setRegister reg)
  | .reset reg => .ok (s.setRegister reg (s.registers reg).reset)

theorem run_readsOn (call : ReadCall) (s : SystemModel) : Keeps ReadsOn s (call.run s) := by
  cases call with
  | setExpectedFromSut v sequence dontCareMask =>
    exact VirtualRegister.setExpectedFromSut_readsOn sequence dontCareMask s
  | registerExpectedFromSut reg sequence dontCareMask =>
    intro s' hrun
    obtain ⟨r', hr', rfl⟩ := map_eq_ok.mp hrun
    exact SystemModel.setRegister_readsOn (Register.setExpectedFromSut_readsOn hr')
  | setCheckExpected reg checkExpected =>
    exact Keeps.ok (SystemModel.setRegister_readsOn (.of_mask rfl rfl rfl (.inl rfl)))
  | setFromSut reg sequence =>
    intro s' hrun
    obtain ⟨r', hr', rfl⟩ := map_eq_ok.mp hrun
    exact SystemModel.setRegister_readsOn (Register.setFromSut_readsOn hr')
  | reset reg =>
    exact Keeps.ok (SystemModel.setRegister_readsOn (.of_mask rfl rfl rfl (.inr (.inl rfl))))

end ReadCall

/-- The state after some calls; one that throws leaves it as it was. -/
def SystemModel.afterReads (s : SystemModel) (calls : List ReadCall) : SystemModel :=
  calls.foldl (fun s call => (call.run s).toOption.getD s) s

theorem SystemModel.afterReads_readsOn (s : SystemModel) (calls : List ReadCall) :
    ReadsOn s (s.afterReads calls) := by
  unfold afterReads
  refine List.foldlRecOn calls _ (ReadsOn.refl s) fun s' hs call _ => ?_
  cases hrun : call.run s' with
  | error fault => exact hs
  | ok s'' => exact IsTrans.trans _ _ _ hs (call.run_readsOn s' s'' hrun)

/-- Whatever was read before, a virtual register proxies its registers as it did. -/
theorem VirtualRegister.Proxies.afterReads {v : VirtualRegister} {s : SystemModel}
    {ordering : BitsOrdering} {bitsCount : Nat → Nat} (hv : v.Proxies s ordering bitsCount)
    (hboxes : ∀ slice ∈ v, (s.registers slice.reg).isBlackBox = false) (calls : List ReadCall) :
    v.Proxies (s.afterReads calls) ordering bitsCount where
  some := hv.some
  numbered slice hslice := by
    obtain ⟨-, -, hordering⟩ :=
      s.afterReads_readsOn calls slice.reg _ (hboxes slice hslice) (hv.reads slice hslice)
    exact hordering.trans (hv.numbered slice hslice)
  reads slice hslice :=
    (s.afterReads_readsOn calls slice.reg _ (hboxes slice hslice) (hv.reads slice hslice)).2.1
  within := hv.within
  disjoint := hv.disjoint

/-! ### A register of two bits -/

theorem twoBits_proxies :
    VirtualRegister.Proxies (.ofRegister 1 2) (DefaultSelector.createdModel [false, false] .downto)
      .downto (fun _ => 2) where
  some := by decide
  numbered slice hslice := by rfl
  reads slice hslice := @Register.create_reads "" [false, false] false .downto (by decide)
  within slice hslice := by
    obtain rfl := List.mem_singleton.mp hslice
    exact ⟨by decide, by decide⟩
  disjoint := by decide

theorem VirtualRegister.checksNamedBits_two_bits :
    VirtualRegister.ChecksNamedBits (.ofRegister 1 2) .downto (fun _ => 2) [false, true] []
        (DefaultSelector.createdModel [false, false] .downto) ↔
      VirtualRegister.MasksAgree (.ofRegister 1 2) .downto (fun _ => 2) []
        (DefaultSelector.createdModel [false, false] .downto) :=
  VirtualRegister.checksNamedBits_iff twoBits_proxies rfl (by decide) (.inl rfl)

/-- After a read that masks the second bit, a read without mask still does not check it. -/
theorem VirtualRegister.not_checksNamedBits :
    ∃ s, VirtualRegister.setExpectedFromSut (.ofRegister 1 2) [false, false] [true, false]
        (DefaultSelector.createdModel [false, false] .downto) = .ok s ∧
      ¬VirtualRegister.ChecksNamedBits (.ofRegister 1 2) .downto (fun _ => 2) [false, true] [] s := by
  have hmask : ([true, false] : Bits) = [] ∨ [true, false].length = [false, false].length := .inr rfl
  obtain ⟨s, hrun, hv, -, -, hcares⟩ :=
    VirtualRegister.setExpectedFromSut_ok twoBits_proxies rfl (by decide) hmask
  refine ⟨s, hrun, fun hchecks => ?_⟩
  have hagree := masksAgree_of_checks hv rfl (by decide) (.inl rfl) hchecks 1 (by decide) 1 (by decide)
  rw [if_pos rfl, hcares 1 (by decide) 1 (by decide), CaresAfter, if_neg (by decide)] at hagree
  rcases hagree.mpr (by decide) with ⟨k, hk, hcared⟩ | ⟨hout, -⟩
  · rcases k with _ | _ | k
    · exact absurd hk (by decide)
    · exact absurd hcared (by decide)
    · cases hcared
  · exact hout (by decide)

end Mast
