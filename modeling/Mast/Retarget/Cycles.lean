import Mast.Retarget.Turns

/-!
# A data cycle over a tree of MIBs

`ToSutVisitor` gets through a tree of MIBs without a fault and collects the registers that are reached. If the protocol returns as many bits as it is given, the registers that have been collected are served, channel by channel.
-/

namespace Mast

open Multiplexers Outcome

variable {mibs : Nat → Mib} {s s' : SystemModel}

/-! ### The registers that are collected -/

/-- The loop over the next children visits those the gate lets through. -/
def PathCounter.Gated (s : SystemModel) (counter : PathCounter) (gate : Nat → Bool)
    (i count : Nat) : Prop :=
  ∀ k < count, (PathCounter.next^[k] counter).isVisited s = .ok (gate (i + k))

namespace PathCounter.Gated

variable {counter : PathCounter} {gate : Nat → Bool} {i count : Nat}

theorem first (h : counter.Gated s gate i (count + 1)) : counter.isVisited s = .ok (gate i) :=
  h 0 (Nat.succ_pos count)

theorem rest (h : counter.Gated s gate i (count + 1)) :
    counter.next.Gated s gate (i + 1) count := by
  intro k hk
  have hnext := h (k + 1) (Nat.succ_lt_succ hk)
  rwa [Function.iterate_succ_apply, show i + (k + 1) = i + 1 + k by omega] at hnext

theorem all (i count : Nat) : PathCounter.Gated s none (fun _ => true) i count := by
  intro k _
  rw [Function.iterate_fixed (show PathCounter.next none = none from rfl) k]
  rfl

theorem next_iterate (p : PathSelector) (i k : Nat) :
    PathCounter.next^[k] (some (p, i)) = some (p, i + k) := by
  induction k generalizing i with
  | zero => rfl
  | succ k ih =>
    rw [Function.iterate_succ_apply, PathCounter.next, ih]
    congr 2
    omega

/-- The loop over the children of a linker visits those whose paths are open. -/
theorem paths {mib : Mib} (hready : mib.Ready s) : PathCounter.Gated s (some (mib.selector, 1))
    (mib.lever.opens (s.registers mib.selectorRegister).lastToSut) 1 mib.paths := by
  intro k hk
  rw [next_iterate]
  exact Linker.isActive_mib (l := ⟨0, mib.selector, false⟩) rfl hready.mux (by omega)

end PathCounter.Gated

theorem ToSutVisitor.visit_reached {nodes : Nodes} {siblings : List Nat} {counter : PathCounter}
    {gate : Nat → Bool} {i : Nat} (hretargetable : nodes.Retargetable mibs siblings)
    (hready : nodes.Ready mibs s) (hgate : counter.Gated s gate i nodes.siblingsCount)
    (visitor : ToSutVisitor) :
    ∃ visitor', visit s false counter nodes visitor = .ok visitor' ∧
      Collects s false visitor visitor' (nodes.reached mibs s gate i) := by
  induction nodes generalizing siblings counter gate i visitor with
  | none => exact ⟨visitor, rfl, .refl visitor⟩
  | register id nextSibling ih =>
    have hvisited := hgate.first
    rw [visit, hvisited, Nodes.reached]
    cases hopen : gate i with
    | true =>
      obtain ⟨visitor', hrest, hcollects⟩ := ih hretargetable hready hgate.rest
        (visitor.visitRegister false id (s.registers id))
      exact ⟨visitor', hrest, (visitRegister_collects id visitor).trans hcollects⟩
    | false =>
      obtain ⟨visitor', hrest, hcollects⟩ := ih hretargetable hready hgate.rest visitor
      exact ⟨visitor', hrest, hcollects⟩
  | parent kind id firstChild nextSibling ihChild ihNext =>
    have hvisited := hgate.first
    have hnext := Nodes.Wired.retargetable_next hretargetable
    cases kind with
    | linker p keepOpen =>
      obtain ⟨⟨rfl, -, -, hpaths⟩, hbelow, -⟩ := hretargetable
      have hmib : (mibs id).Ready s := hready id firstChild List.mem_cons_self
      have hreadyChild : firstChild.Ready mibs s := fun other child hmem =>
        hready other child (List.mem_cons_of_mem _ (List.mem_append_left _ hmem))
      have hreadyNext : nextSibling.Ready mibs s := fun other child hmem =>
        hready other child (List.mem_cons_of_mem _ (List.mem_append_right _ hmem))
      have hpathsGate : PathCounter.Gated s
          (PathCounter.first (.linker (mibs id).selector keepOpen))
          ((mibs id).lever.opens (s.registers (mibs id).selectorRegister).lastToSut) 1
          firstChild.siblingsCount := by
        rw [hpaths]
        exact .paths hmib
      rw [visit, hvisited, Nodes.reached]
      cases hopen : gate i with
      | true =>
        obtain ⟨inner, hinner, hcollects⟩ := ihChild hbelow hreadyChild hpathsGate visitor
        obtain ⟨visitor', hrest, hcollects'⟩ := ihNext hnext hreadyNext hgate.rest
          (leave (.linker (mibs id).selector keepOpen) id visitor inner)
        refine ⟨visitor', ?_, (leave_collects hcollects).trans hcollects'⟩
        exact bind_eq_ok.mpr ⟨true, rfl, bind_eq_ok.mpr ⟨inner, hinner, hrest⟩⟩
      | false =>
        obtain ⟨visitor', hrest, hcollects⟩ := ihNext hnext hreadyNext hgate.rest visitor
        exact ⟨visitor', hrest, hcollects⟩
    | chain =>
      have hreadyChild : firstChild.Ready mibs s := fun other child hmem =>
        hready other child (List.mem_append_left _ hmem)
      have hreadyNext : nextSibling.Ready mibs s := fun other child hmem =>
        hready other child (List.mem_append_right _ hmem)
      rw [visit, hvisited, Nodes.reached]
      · cases hopen : gate i with
        | true =>
          obtain ⟨inner, hinner, hcollects⟩ :=
            ihChild hretargetable.1 hreadyChild (.all 1 _) visitor
          obtain ⟨visitor', hrest, hcollects'⟩ := ihNext hnext hreadyNext hgate.rest
            (leave .chain id visitor inner)
          refine ⟨visitor', ?_, (leave_collects hcollects).trans hcollects'⟩
          exact bind_eq_ok.mpr ⟨true, rfl, bind_eq_ok.mpr ⟨inner, hinner, hrest⟩⟩
        | false =>
          obtain ⟨visitor', hrest, hcollects⟩ := ihNext hnext hreadyNext hgate.rest visitor
          exact ⟨visitor', hrest, hcollects⟩
      · exact fun p keepOpen hkind => by cases hkind
    | _ => exact hretargetable.elim

/-! ### The registers that are served -/

/-- The register has at least one bit, and what it sends and what it expects have the number of its bits. -/
structure Register.Shiftable (r : Register) : Prop where
  nextToSut : r.nextToSut.length = r.bitsCount
  bitsCount_pos : 0 < r.bitsCount
  comparable : r.Comparable

theorem Register.Shiftable.sent_length {r : Register} (h : r.Shiftable) :
    (r.sent false).length = r.bitsCount := by
  unfold Register.sent
  split
  · exact h.nextToSut
  · rfl

/-- The registers can be scanned, all of them with fewer than `2^32` bits. -/
structure Nodes.Scannable (nodes : Nodes) (s : SystemModel) : Prop where
  isRegister (reg : Nat) : reg ∈ nodes.registerIds → s.IsRegister reg
  shiftable (reg : Nat) : reg ∈ nodes.registerIds → (s.registers reg).Shiftable
  width_lt : FromSutUpdater.width s nodes.registerIds < uint32Size

theorem FromSutUpdater.width_sublist (s : SystemModel) {ids ids' : List Nat}
    (h : ids.Sublist ids') : width s ids ≤ width s ids' := by
  induction h with
  | slnil => exact Nat.le_refl _
  | cons id _ ih =>
    rw [width_cons]
    exact Nat.le_add_left_of_le ih
  | cons_cons id _ ih =>
    rw [width_cons, width_cons]
    exact Nat.add_le_add_left ih _

/-- The registers have bits alike, and the same mask. -/
structure Register.SameBits (r r' : Register) : Prop where
  bitsOrdering : r'.bitsOrdering = r.bitsOrdering
  isBlackBox : r'.isBlackBox = r.isBlackBox
  fixedSize : r'.fixedSize = r.fixedSize
  bitsCount : r'.bitsCount = r.bitsCount
  dontCareMask : r'.dontCareMask = r.dontCareMask

theorem Register.SameBits.refl (r : Register) : r.SameBits r := ⟨rfl, rfl, rfl, rfl, rfl⟩

theorem Register.SameBits.trans {r r' r'' : Register} (h : r.SameBits r') (h' : r'.SameBits r'') :
    r.SameBits r'' :=
  ⟨h'.1.trans h.1, h'.2.trans h.2, h'.3.trans h.3, h'.4.trans h.4, h'.5.trans h.5⟩

theorem FromSutUpdater.updateRegister_sameBits {r r' : Register} {id offset : Nat}
    {fromSutVector : Bits} (hupdate : updateRegister r id offset fromSutVector = .ok r') :
    r.SameBits r' := by
  unfold updateRegister at hupdate
  split at hupdate
  · cases hupdate
  · obtain ⟨received, -, hrest⟩ := bind_eq_ok.mp hupdate
    obtain ⟨r₁, hset, hreturn⟩ := bind_eq_ok.mp hrest
    obtain rfl := Except.ok.inj hreturn
    unfold Register.setFromSut at hset
    simp only at hset
    split at hset
    · cases hset
    · split at hset
      · obtain rfl := Except.ok.inj hset
        exact ⟨rfl, rfl, rfl, rfl, rfl⟩
      · cases hset

/-- What the updater leaves alone. It consumes the whole vector, so that it fails unless this has as many bits as the registers. -/
theorem FromSutUpdater.updateFrom_setup {fromSutVector : Bits} {ids : List Nat} {offset : Nat}
    (hupdate : updateFrom fromSutVector ids offset s = .ok s') :
    s'.identifierMapping = s.identifierMapping ∧
      (∀ reg, (s.registers reg).SameBits (s'.registers reg)) ∧
      (offset + width s ids < uint32Size → offset + width s ids = fromSutVector.length) := by
  induction ids generalizing offset s with
  | nil =>
    unfold updateFrom at hupdate
    by_cases hconsumed : offset ≠ fromSutVector.length
    · rw [if_pos hconsumed] at hupdate
      cases hupdate
    · rw [if_neg hconsumed] at hupdate
      obtain rfl := Except.ok.inj hupdate
      exact ⟨rfl, fun _ => .refl _, fun _ => not_not.mp hconsumed⟩
  | cons id rest ih =>
    obtain ⟨found, hfound, hrest⟩ := bind_eq_ok.mp hupdate
    cases found with
    | none => cases hrest
    | some r =>
      obtain ⟨r', hregister, hnext⟩ := bind_eq_ok.mp hrest
      obtain ⟨hmapping, hbits, hlength⟩ := ih hnext
      have hsame : ∀ reg, (s.registers reg).SameBits ((s.setRegister id r').registers reg) := by
        intro reg
        by_cases hreg : reg = id
        · subst hreg
          rw [SystemModel.setRegister_self, ← SystemModel.registerWithId_eq_some hfound]
          exact updateRegister_sameBits hregister
        · rw [SystemModel.setRegister_other _ _ hreg]
          exact .refl _
      have hwidth : width (s.setRegister id r') rest = width s rest := by
        unfold width
        rw [List.map_congr_left fun reg _ => (hsame reg).bitsCount]
      refine ⟨hmapping, fun reg => (hsame reg).trans (hbits reg), fun hlt => ?_⟩
      rw [width_cons] at hlt ⊢
      have hcount : r.bitsCount = (s.registers id).bitsCount := by
        rw [SystemModel.registerWithId_eq_some hfound]
      rw [hwidth, hcount, Nat.mod_eq_of_lt (by omega)] at hlength
      rw [← Nat.add_assoc]
      exact hlength (by omega)

theorem Serves.none (s : SystemModel) : Serves [] s s :=
  ⟨fun _ hmem => absurd hmem List.not_mem_nil, fun _ _ => rfl, fun _ => rfl, rfl, rfl⟩

section Channel

variable {channel : Nodes} (hwired : channel.Wired mibs []) (hscannable : channel.Scannable s)
include hwired hscannable

theorem Serves.of_update {ids : List Nat} (hids : ids.Sublist channel.registerIds)
    {fromSutVector : Bits}
    (hupdate : FromSutUpdater.updateRegisters ids fromSutVector s = .ok s') : Serves ids s s' := by
  obtain ⟨hmapping, hbits, hconsumed⟩ := FromSutUpdater.updateFrom_setup hupdate
  have hwidth : FromSutUpdater.width s ids < uint32Size :=
    Nat.lt_of_le_of_lt (FromSutUpdater.width_sublist s hids) hscannable.width_lt
  rw [Nat.zero_add] at hconsumed
  have hlength := hconsumed hwidth
  obtain ⟨updated, hupdated, hslices, hothers, hcounts, -⟩ := FromSutUpdater.updateFrom_defined
    (hids.nodup hwired.registers) (fun id hid => hscannable.isRegister id (hids.subset hid))
    (fun id hid => (hscannable.shiftable id (hids.subset hid)).comparable)
    (hlength ▸ hwidth) ((Nat.zero_add _).trans hlength)
  obtain rfl : updated = s' := Except.ok.inj (hupdated.symm.trans hupdate)
  refine ⟨fun reg hreg => ?_, hothers, fun reg => (hbits reg).bitsOrdering, hmapping, hcounts⟩
  obtain ⟨front, rest, hsplit⟩ := List.append_of_mem hreg
  exact ⟨_, hslices front reg rest hsplit⟩

variable (hready : channel.Ready mibs s)
include hready

/-- The vector for a channel has the bits of the registers that are reached, and there is one unless none is. -/
theorem ToSutVisitor.visit_channel : ∃ visitor, visit s false none channel .start = .ok visitor ∧
    visitor.activeRegisters = channel.reached mibs s (fun _ => true) 1 ∧
    visitor.toSutVector.length =
      FromSutUpdater.width s (channel.reached mibs s (fun _ => true) 1) ∧
    (visitor.toSutVector = [] → channel.reached mibs s (fun _ => true) 1 = []) := by
  obtain ⟨visitor, hvisit, hcollects⟩ :=
    visit_reached hwired.retargetable hready (.all 1 _) .start
  have hshiftable : ∀ id ∈ channel.reached mibs s (fun _ => true) 1, (s.registers id).Shiftable :=
    fun id hid => hscannable.shiftable id (Nodes.reached_subset hid)
  have htoSut : visitor.toSutVector =
      (channel.reached mibs s (fun _ => true) 1).flatMap fun id => (s.registers id).sent false :=
    hcollects.toSutVector
  have hlength : visitor.toSutVector.length =
      FromSutUpdater.width s (channel.reached mibs s (fun _ => true) 1) := by
    rw [htoSut, flatMap_length fun id hid => (hshiftable id hid).sent_length]
  refine ⟨visitor, hvisit, hcollects.activeRegisters, hlength, fun hempty => ?_⟩
  rw [hempty, List.length_nil] at hlength
  cases hreached : channel.reached mibs s (fun _ => true) 1 with
  | nil => rfl
  | cons id rest =>
    have hpos := (hshiftable id (hreached ▸ List.mem_cons_self)).bitsCount_pos
    rw [hreached, FromSutUpdater.width_cons] at hlength
    omega

/-- A channel that is pending is served, unless no register is reached. -/
theorem SystemModelManager.doChannel_serves {protocol : Bits → Bits}
    (hprotocol : ∀ vector, (protocol vector).length = vector.length) :
    ∃ s', doChannel protocol channel s = .ok s' ∧
      Serves (if channel.isPending s then channel.reached mibs s (fun _ => true) 1 else [])
        s s' := by
  unfold doChannel
  by_cases hpending : channel.isPending s = true
  · rw [if_pos hpending, if_pos hpending]
    have hids : (channel.reached mibs s (fun _ => true) 1).Sublist channel.registerIds :=
      Nodes.reached_sublist
    obtain ⟨visitor, hvisit, hactive, hlength, hnone⟩ :=
      ToSutVisitor.visit_channel hwired hscannable hready
    by_cases hempty : visitor.toSutVector = []
    · refine ⟨s, bind_eq_ok.mpr ⟨visitor, hvisit, if_pos hempty⟩, ?_⟩
      rw [hnone hempty]
      exact .none s
    · have hwidth := Nat.lt_of_le_of_lt (FromSutUpdater.width_sublist s hids) hscannable.width_lt
      have hreceived := (hprotocol visitor.toSutVector).trans hlength
      obtain ⟨s', hupdate, -⟩ := FromSutUpdater.updateFrom_defined
        (hids.nodup hwired.registers) (fun id hid => hscannable.isRegister id (hids.subset hid))
        (fun id hid => (hscannable.shiftable id (hids.subset hid)).comparable)
        (hreceived ▸ hwidth) ((Nat.zero_add _).trans hreceived.symm)
      refine ⟨s', bind_eq_ok.mpr ⟨visitor, hvisit, ?_⟩, .of_update hwired hscannable hids hupdate⟩
      rw [if_neg hempty, hactive]
      exact hupdate
  · rw [if_neg hpending, if_neg hpending]
    exact ⟨s, rfl, .none s⟩

end Channel

/-! ### All channels -/

theorem Serves.append {served served' : List Nat} {s₁ : SystemModel} (h : Serves served s s₁)
    (h' : Serves served' s₁ s') (hapart : ∀ reg ∈ served, reg ∉ served') :
    Serves (served ++ served') s s' where
  serves reg hreg := by
    rcases List.mem_append.mp hreg with hfirst | hlater
    · rw [h'.waits reg (hapart reg hfirst)]
      exact h.serves reg hfirst
    · rw [← h.waits reg fun hfirst => hapart reg hfirst hlater]
      exact h'.serves reg hlater
  waits reg hreg := by
    rw [List.mem_append, not_or] at hreg
    rw [h'.waits reg hreg.2, h.waits reg hreg.1]
  bitsOrdering reg := (h'.bitsOrdering reg).trans (h.bitsOrdering reg)
  identifierMapping := h'.identifierMapping.trans h.identifierMapping
  pendingCounts := h'.pendingCounts.trans h.pendingCounts

namespace Nodes

variable {nodes head tail : Nodes}

theorem served_congr (hwired : nodes.Wired mibs [])
    (hsame : ∀ reg ∈ nodes.registerIds, s'.registers reg = s.registers reg)
    (hcounts : s'.pendingCounts = s.pendingCounts) :
    nodes.served mibs s' = nodes.served mibs s := by
  induction nodes using splits_induction with
  | none => rfl
  | @splits nodes head tail hsplits ih =>
    rw [hsplits.registerIds] at hsame
    obtain ⟨hfirst, hlater⟩ := List.forall_mem_append.mp hsame
    have hwiredHead := hsplits.wired_head hwired
    have hpending : head.isPending s' = head.isPending s := by
      cases hsplits with
      | register id nextSibling => exact congrArg Register.isPending (hfirst id List.mem_cons_self)
      | parent kind id firstChild nextSibling =>
        change decide (s'.pendingCounts id ≠ 0) = decide (s.pendingCounts id ≠ 0)
        rw [hcounts]
    have hreached :
        head.reached mibs s' (fun _ => true) 1 = head.reached mibs s (fun _ => true) 1 :=
      reached_congr hwiredHead.retargetable fun reg hreg =>
        hfirst reg (hwiredHead.selectorRegisters_subset hreg)
    rw [hsplits.served, hsplits.served, hpending, hreached, ih (hsplits.wired hwired) hlater]

theorem Ready.congr {siblings : List Nat} (h : nodes.Ready mibs s)
    (hretargetable : nodes.Retargetable mibs siblings)
    (hsame : ∀ reg ∈ nodes.selectorRegisters, s'.registers reg = s.registers reg) :
    nodes.Ready mibs s' := fun id firstChild hmem =>
  (h id firstChild hmem).congr (hsame _ (mem_selectorRegisters hretargetable hmem))

theorem Scannable.congr (h : nodes.Scannable s)
    (hsame : ∀ reg ∈ nodes.registerIds, s'.registers reg = s.registers reg)
    (hmapping : s'.identifierMapping = s.identifierMapping) : nodes.Scannable s' where
  isRegister reg hreg := by
    rw [SystemModel.IsRegister, hmapping]
    exact h.isRegister reg hreg
  shiftable reg hreg := by
    rw [hsame reg hreg]
    exact h.shiftable reg hreg
  width_lt := by
    rw [FromSutUpdater.width_congr hsame]
    exact h.width_lt

theorem Splits.scannable (hsplits : nodes.Splits head tail) (h : nodes.Scannable s) :
    head.Scannable s ∧ tail.Scannable s := by
  obtain ⟨hregister, hshiftable, hwidth⟩ := h
  rw [hsplits.registerIds] at hregister hshiftable hwidth
  rw [FromSutUpdater.width_append] at hwidth
  constructor
  · exact ⟨fun reg hreg => hregister reg (List.mem_append_left _ hreg),
      fun reg hreg => hshiftable reg (List.mem_append_left _ hreg), by omega⟩
  · exact ⟨fun reg hreg => hregister reg (List.mem_append_right _ hreg),
      fun reg hreg => hshiftable reg (List.mem_append_right _ hreg), by omega⟩

end Nodes

section Splits

variable {nodes head tail : Nodes} {s₁ : SystemModel}
  (hfirst : Serves (if head.isPending s then head.reached mibs s (fun _ => true) 1 else []) s s₁)
  (hsplits : nodes.Splits head tail) (hwired : nodes.Wired mibs [])
include hfirst

omit hfirst in
theorem Nodes.firstServed_subset {reg : Nat}
    (hreg : reg ∈ if head.isPending s then head.reached mibs s (fun _ => true) 1 else []) :
    reg ∈ head.registerIds := by
  split at hreg
  · exact Nodes.reached_subset hreg
  · exact absurd hreg List.not_mem_nil

include hsplits hwired

theorem Serves.leaves_eq {reg : Nat} (hreg : reg ∈ tail.registerIds) :
    s₁.registers reg = s.registers reg :=
  hfirst.waits reg fun hmem => hsplits.apart hwired (Nodes.firstServed_subset hmem) hreg

/-- The first channel leaves the others ready. -/
theorem Serves.leaves (hready : nodes.Ready mibs s) (hscannable : nodes.Scannable s) :
    tail.Ready mibs s₁ ∧ tail.Scannable s₁ := by
  have hwiredTail := hsplits.wired hwired
  have hreadyTail : tail.Ready mibs s := fun id firstChild hmem =>
    hready id firstChild (hsplits.linkers ▸ List.mem_append_right _ hmem)
  constructor
  · exact hreadyTail.congr hwiredTail.retargetable fun reg hreg =>
      hfirst.leaves_eq hsplits hwired (hwiredTail.selectorRegisters_subset hreg)
  · exact (hsplits.scannable hscannable).2.congr
      (fun reg hreg => hfirst.leaves_eq hsplits hwired hreg) hfirst.identifierMapping

theorem Serves.splits (hrest : Serves (tail.served mibs s₁) s₁ s') :
    Serves (nodes.served mibs s) s s' := by
  have hsame : ∀ reg ∈ tail.registerIds, s₁.registers reg = s.registers reg :=
    fun reg hreg => hfirst.leaves_eq hsplits hwired hreg
  rw [Nodes.served_congr (hsplits.wired hwired) hsame hfirst.pendingCounts] at hrest
  rw [hsplits.served]
  exact hfirst.append hrest fun reg hreg hlater =>
    hsplits.apart hwired (Nodes.firstServed_subset hreg) (Nodes.served_subset hlater)

end Splits

theorem SystemModelManager.doChannels_splits {nodes head tail : Nodes}
    (hsplits : nodes.Splits head tail) (protocol : Nat → Bits → Bits) (channelId : Nat)
    (s : SystemModel) :
    doChannels protocol channelId nodes s = (do
      let s ← doChannel (protocol channelId) head s
      doChannels protocol (channelId + 1) tail s) := by
  cases hsplits <;> rfl

/-- A data cycle serves the registers that are reached in the pending channels. -/
theorem SystemModelManager.doChannels_serves {nodes : Nodes} {protocol : Nat → Bits → Bits}
    (hprotocol : ∀ channelId vector, (protocol channelId vector).length = vector.length)
    (channelId : Nat) (hwired : nodes.Wired mibs []) (hready : nodes.Ready mibs s)
    (hscannable : nodes.Scannable s) :
    ∃ s', doChannels protocol channelId nodes s = .ok s' ∧ Serves (nodes.served mibs s) s s' := by
  induction nodes using Nodes.splits_induction generalizing s channelId with
  | none => exact ⟨s, rfl, .none s⟩
  | @splits nodes head tail hsplits ih =>
    obtain ⟨hscannableHead, -⟩ := hsplits.scannable hscannable
    have hreadyHead : head.Ready mibs s := fun id firstChild hmem =>
      hready id firstChild (hsplits.linkers ▸ List.mem_append_left _ hmem)
    obtain ⟨s₁, hfirst, hserves⟩ := doChannel_serves (hsplits.wired_head hwired) hscannableHead
      hreadyHead (hprotocol channelId)
    obtain ⟨hreadyTail, hscannableTail⟩ := hserves.leaves hsplits hwired hready hscannable
    obtain ⟨s', hrest, hserves'⟩ :=
      ih (channelId + 1) (hsplits.wired hwired) hreadyTail hscannableTail
    refine ⟨s', ?_, hserves.splits hsplits hwired hserves'⟩
    rw [doChannels_splits hsplits]
    exact bind_eq_ok.mpr ⟨s₁, hfirst, hrest⟩

end Mast
