import Mast.Lib.Runs
import Mast.Scan.PendingCounts

/-!
# The mirror of the device

`LastToSut` is meant to hold what the device holds. The device keeps the bits shifted into it, its part of the vector that `ToSutVisitor` built from `NextToSut` or the bypass sequence of every register; the updater copies `NextToSut` whichever was shifted. So the mirror is right after a data cycle exactly when every active register sent its `NextToSut`: it was pending for write, or its bypass sequence was the same.
-/

namespace Mast

open Outcome Runs

/-- A system model with the bits the device holds for each of its registers. -/
structure Scanned where
  model : SystemModel
  device : Nat → Bits

/-- A data cycle on a channel: the state the to-SUT vector was built from, the visitor that built it, the vector that came back and the updated state. -/
structure DataCycle where
  channel : Nodes
  configured : SystemModel
  visitor : ToSutVisitor
  fromSutVector : Bits
  updated : SystemModel

namespace DataCycle

/-- A data cycle from a state of the model, with the vector that comes back. -/
def run (algorithm : Option ConfigurationAlgorithm) (root channel : Nodes) (fromSutVector : Bits)
    (s : SystemModel) : Except Fault DataCycle := do
  let s' ← ConfigureVisitor.visit algorithm none root s
  let configured := PropagatePendingVisitor.propagate root s'
  let visitor ← ToSutVisitor.visit configured false none channel .start
  let updated ← FromSutUpdater.updateRegisters visitor.activeRegisters fromSutVector configured
  return ⟨channel, configured, visitor, fromSutVector, updated⟩

def Runs (algorithm : Option ConfigurationAlgorithm) (root : Nodes) (s : SystemModel)
    (c : DataCycle) : Prop := run algorithm root c.channel c.fromSutVector s = .ok c

/-- What is shifted into an active register: its bits of the to-SUT vector, behind those of the registers before it. -/
def shifted (c : DataCycle) (id : Nat) : Bits :=
  (c.visitor.toSutVector.drop
    (FromSutUpdater.width c.configured (c.visitor.activeRegisters.takeWhile (· != id)))).take
      (c.configured.registers id).bitsCount

def shift (c : DataCycle) (device : Nat → Bits) (id : Nat) : Bits :=
  if id ∈ c.visitor.activeRegisters then c.shifted id else device id

/-- After the cycle `LastToSut` of every active register is what was shifted into it. -/
def Mirrored (c : DataCycle) : Prop :=
  ∀ id ∈ c.visitor.activeRegisters, (c.updated.registers id).lastToSut = c.shifted id

/-- The active registers have as many bits to send as their bypass sequences; only a black box may not. -/
def NextFits (c : DataCycle) : Prop :=
  ∀ id ∈ c.visitor.activeRegisters,
    (c.configured.registers id).nextToSut.length = (c.configured.registers id).bitsCount

/-- When the vector is built every active register is pending for write or has its `NextToSut` as bypass sequence. -/
def SendsNext (c : DataCycle) : Prop :=
  ∀ id ∈ c.visitor.activeRegisters, (c.configured.registers id).isPendingForWrite = true ∨
    (c.configured.registers id).bypass = (c.configured.registers id).nextToSut

end DataCycle

inductive Action
  | write (id : Nat) (sequence : Bits)
  | read (id : Nat)
  | cycle (c : DataCycle)

/-- A write by `SetToSut`, a read request or a data cycle. -/
def Scanned.step (algorithm : Option ConfigurationAlgorithm) (root : Nodes) (st : Scanned) :
    Action → Scanned → Prop
  | .write id sequence, st' =>
    ∃ r, (st.model.registers id).setToSut sequence = .ok r ∧
      st' = ⟨st.model.setRegister id r, st.device⟩
  | .read id, st' =>
    st' = ⟨st.model.setRegister id ((st.model.registers id).setPendingForRead true), st.device⟩
  | .cycle c, st' =>
    c.Runs algorithm root st.model ∧ st' = ⟨c.updated, c.shift st.device⟩

/-! ### Data cycles -/

/-- A register that the updater has visited, whatever it received. -/
structure Register.Updated (r r' : Register) : Prop where
  lastToSut : r'.lastToSut = r.nextToSut
  nextToSut : r'.nextToSut = r.nextToSut
  bypass : r'.bypass = r.bypass
  holdValue : r'.holdValue = r.holdValue
  pendingRead : r'.pendingRead = false
  pendingCount : r'.pendingCount = 0

theorem Register.Served.updated {r r' : Register} {received : Bits}
    (h : r.Served r' received) : r.Updated r' :=
  ⟨h.lastToSut, h.nextToSut, h.bypass, h.holdValue, h.pendingRead, h.pendingCount⟩

theorem Register.Updated.trans {r r' r'' : Register} (h : r.Updated r') (h' : r'.Updated r'') :
    r.Updated r'' :=
  ⟨h'.lastToSut.trans h.nextToSut, h'.nextToSut.trans h.nextToSut, h'.bypass.trans h.bypass,
    h'.holdValue.trans h.holdValue, h'.pendingRead, h'.pendingCount⟩

theorem FromSutUpdater.updateFrom_updated {fromSutVector : Bits} {ids : List Nat} {offset : Nat}
    {s s' : SystemModel} (hupdate : updateFrom fromSutVector ids offset s = .ok s') :
    (∀ id ∈ ids, (s.registers id).Updated (s'.registers id)) ∧
      ∀ id, id ∉ ids → s'.registers id = s.registers id := by
  induction ids generalizing offset s with
  | nil =>
    unfold updateFrom at hupdate
    split at hupdate
    · cases hupdate
    · obtain rfl := Except.ok.inj hupdate
      exact ⟨fun _ hid => (List.not_mem_nil hid).elim, fun _ _ => rfl⟩
  | cons id rest ih =>
    obtain ⟨found, hfound, hrest⟩ := bind_eq_ok.mp hupdate
    cases found with
    | none => cases hrest
    | some reg =>
      obtain ⟨r, hreg, hnext⟩ := bind_eq_ok.mp hrest
      obtain ⟨received, -, hserved⟩ := updateRegister_served hreg
      rw [SystemModel.registerWithId_eq_some hfound] at hserved
      obtain ⟨hupdated, hothers⟩ := ih hnext
      have hother : ∀ {other}, other ≠ id →
          (s.setRegister id r).registers other = s.registers other :=
        SystemModel.setRegister_other s r
      refine ⟨fun other hmem => ?_, fun other hnot => ?_⟩
      · by_cases hsame : other = id
        · subst hsame
          by_cases hlater : other ∈ rest
          · have hagain := hupdated other hlater
            rw [SystemModel.setRegister_self] at hagain
            exact hserved.updated.trans hagain
          · rw [hothers other hlater, SystemModel.setRegister_self]
            exact hserved.updated
        · have hlater := (List.mem_cons.mp hmem).resolve_left hsame
          rw [← hother hsame]
          exact hupdated other hlater
      · obtain ⟨hne, hlater⟩ := not_or.mp (mt List.mem_cons.mpr hnot)
        rw [hothers other hlater, hother hne]

namespace DataCycle

variable {algorithm : Option ConfigurationAlgorithm} {root : Nodes} {s : SystemModel} {c : DataCycle}

theorem runs_of_run {channel : Nodes} {fromSutVector : Bits}
    (h : run algorithm root channel fromSutVector s = .ok c) : c.Runs algorithm root s := by
  obtain ⟨s', hconfigure, hrest⟩ := bind_eq_ok.mp h
  obtain ⟨visitor, hvisit, hrest⟩ := bind_eq_ok.mp hrest
  obtain ⟨updated, hupdate, hreturn⟩ := bind_eq_ok.mp hrest
  obtain rfl := Except.ok.inj hreturn
  exact h

theorem Runs.steps (h : c.Runs algorithm root s) :
    ∃ s', ConfigureVisitor.visit algorithm none root s = .ok s' ∧
      c.configured = PropagatePendingVisitor.propagate root s' ∧
      ToSutVisitor.visit c.configured false none c.channel .start = .ok c.visitor ∧
      FromSutUpdater.updateRegisters c.visitor.activeRegisters c.fromSutVector c.configured =
        .ok c.updated := by
  obtain ⟨s', hconfigure, hrest⟩ := bind_eq_ok.mp h
  obtain ⟨visitor, hvisit, hrest⟩ := bind_eq_ok.mp hrest
  obtain ⟨updated, hupdate, hreturn⟩ := bind_eq_ok.mp hrest
  rw [← Except.ok.inj hreturn]
  exact ⟨s', hconfigure, rfl, hvisit, hupdate⟩

/-- The configuration and the propagation steer registers at most. -/
theorem Runs.configured_steered (h : c.Runs algorithm root s) (id : Nat) :
    (s.registers id).Steered (c.configured.registers id) := by
  obtain ⟨s', hconfigure, hconfigured, -⟩ := h.steps
  have hvisited := ConfigureVisitor.visit_visited (List.nil_subset _) (List.Subset.refl _) s s'
    hconfigure
  rw [hconfigured]
  exact (hvisited.steered id).trans (PropagatePendingVisitor.propagate_steered root s' id)

theorem Runs.updated (h : c.Runs algorithm root s) {id : Nat}
    (hactive : id ∈ c.visitor.activeRegisters) :
    (c.configured.registers id).Updated (c.updated.registers id) := by
  obtain ⟨-, -, -, -, hupdate⟩ := h.steps
  exact (FromSutUpdater.updateFrom_updated hupdate).1 id hactive

theorem Runs.inactive (h : c.Runs algorithm root s) {id : Nat}
    (hinactive : id ∉ c.visitor.activeRegisters) :
    c.updated.registers id = c.configured.registers id := by
  obtain ⟨-, -, -, -, hupdate⟩ := h.steps
  exact (FromSutUpdater.updateFrom_updated hupdate).2 id hinactive

theorem NextFits.of_sized
    (hsized : ∀ id ∈ c.visitor.activeRegisters, (c.configured.registers id).isBlackBox = false) :
    c.NextFits := by
  intro id hactive
  have hbox := hsized id hactive
  rw [Register.bitsCount, (c.configured.registers id).nextToSut_length hbox,
    (c.configured.registers id).bypass_length hbox]

theorem NextFits.sent_length (hfits : c.NextFits) {id : Nat}
    (hactive : id ∈ c.visitor.activeRegisters) :
    ((c.configured.registers id).sent false).length = (c.configured.registers id).bitsCount := by
  unfold Register.sent
  split
  · exact hfits id hactive
  · rfl

/-- The bits of the vector at the offset of a register are those the visitor has put there for it. -/
theorem Runs.shifted_eq (h : c.Runs algorithm root s) (hfits : c.NextFits) {id : Nat}
    (hactive : id ∈ c.visitor.activeRegisters) :
    c.shifted id = (c.configured.registers id).sent false := by
  obtain ⟨-, -, -, hvisit, -⟩ := h.steps
  obtain ⟨ids, hcollects, -, -⟩ := ToSutVisitor.visit_collects hvisit
  have hids : c.visitor.activeRegisters = ids := hcollects.activeRegisters
  have hvector : c.visitor.toSutVector =
      ids.flatMap fun id => (c.configured.registers id).sent false := hcollects.toSutVector
  obtain ⟨front, rest, hsplit, hfirst⟩ := List.eq_append_cons_of_mem hactive
  have hfront : c.visitor.activeRegisters.takeWhile (· != id) = front := by
    have hbefore : ∀ other ∈ front, (other != id) = true := by
      intro other hother
      rw [bne_iff_ne]
      rintro rfl
      exact hfirst hother
    rw [hsplit, List.takeWhile_append_of_pos hbefore,
      List.takeWhile_cons_of_neg (by rw [bne_self_eq_false]; exact Bool.false_ne_true),
      List.append_nil]
  rw [shifted, hfront, hvector, ← hids, hsplit]
  exact flatMap_slice fun other hother => hfits.sent_length (hsplit ▸ hother)

/-- The mirror is right exactly when `NextToSut` was sent. -/
theorem Runs.mirrored_iff (h : c.Runs algorithm root s) (hfits : c.NextFits) :
    c.Mirrored ↔ c.SendsNext := by
  refine forall₂_congr fun id hactive => ?_
  rw [(h.updated hactive).lastToSut, h.shifted_eq hfits hactive, Register.sent, Bool.false_or]
  cases hpending : (c.configured.registers id).isPendingForWrite with
  | true => simp
  | false => simp [eq_comm]

end DataCycle

/-! ### Runs -/

namespace Scanned

variable {algorithm : Option ConfigurationAlgorithm} {root : Nodes}

/-- A hold register always has its `NextToSut` as bypass sequence. -/
theorem step_held {st st' : Scanned} {action : Action}
    (hheld : ∀ id, (st.model.registers id).Held) (hstep : st.step algorithm root action st') :
    ∀ id, (st'.model.registers id).Held := by
  intro id
  cases action with
  | write other sequence =>
    obtain ⟨r, hset, rfl⟩ := hstep
    have hsteered := SystemModel.setRegister_steered (List.mem_singleton.mpr rfl)
      (Register.setToSut_steered hset)
    exact (hsteered.registers id).held (hheld id)
  | read other =>
    obtain rfl := hstep
    by_cases hother : id = other
    · subst hother
      rw [SystemModel.setRegister_self]
      exact hheld id
    · rw [SystemModel.setRegister_other _ _ hother]
      exact hheld id
  | cycle c =>
    obtain ⟨hruns, rfl⟩ := hstep
    have hconfigured := (hruns.configured_steered id).held (hheld id)
    by_cases hactive : id ∈ c.visitor.activeRegisters
    · have hupdated := hruns.updated hactive
      intro hhold
      rw [hupdated.bypass, hupdated.nextToSut]
      exact hconfigured (hupdated.holdValue ▸ hhold)
    · change (c.updated.registers id).Held
      rwa [hruns.inactive hactive]

/-- `LastToSut` of every register is what the device holds. -/
def Agrees (st : Scanned) : Prop := ∀ id, (st.model.registers id).lastToSut = st.device id

theorem step_agrees {st st' : Scanned} {action : Action} (hagrees : st.Agrees)
    (hsends : ∀ c, action = .cycle c → c.NextFits ∧ c.SendsNext) (hstep : st.step algorithm root action st') :
    st'.Agrees := by
  intro id
  cases action with
  | write other sequence =>
    obtain ⟨r, hset, rfl⟩ := hstep
    have hsteered := SystemModel.setRegister_steered (List.mem_singleton.mpr rfl)
      (Register.setToSut_steered hset)
    exact (hsteered.registers id).lastToSut.trans (hagrees id)
  | read other =>
    obtain rfl := hstep
    by_cases hother : id = other
    · subst hother
      rw [SystemModel.setRegister_self]
      exact hagrees id
    · rw [SystemModel.setRegister_other _ _ hother]
      exact hagrees id
  | cycle c =>
    obtain ⟨hruns, rfl⟩ := hstep
    change (c.updated.registers id).lastToSut = c.shift st.device id
    unfold DataCycle.shift
    by_cases hactive : id ∈ c.visitor.activeRegisters
    · rw [if_pos hactive]
      obtain ⟨hfits, hnext⟩ := hsends c rfl
      exact (hruns.mirrored_iff hfits).mpr hnext id hactive
    · rw [if_neg hactive, hruns.inactive hactive, (hruns.configured_steered id).lastToSut]
      exact hagrees id

end Scanned

def singleChannel : Nodes := .parent .chain 1 (.register 0 .none) .none

def singleRoot : Nodes := .parent .accessInterface 0 singleChannel .none

def singleModel : SystemModel where
  identifierMapping := [.register]
  registers _ := .create "reg" [false] false .downto
  pendingCounts _ := 0
  iRunLoopCounts _ := 0

def single : Scanned := ⟨singleModel, fun _ => [false]⟩

def singleWritten : Register :=
  { Register.create "reg" [false] false .downto with
    nextToSut := [true]
    nextToSut_length := fun _ => rfl }

theorem single_write : (singleModel.registers 0).setToSut [true] = .ok singleWritten := rfl

def readRequested (s : SystemModel) : SystemModel :=
  s.setRegister 0 ((s.registers 0).setPendingForRead true)

theorem single_cycles :
    ∃ c c' : DataCycle,
      DataCycle.run none singleRoot singleChannel [false]
        (singleModel.setRegister 0 singleWritten) = .ok c ∧
      DataCycle.run none singleRoot singleChannel [true] (readRequested c.updated) = .ok c' ∧
      c.visitor.activeRegisters = [0] ∧ (c.configured.registers 0).isPendingForWrite = true ∧
      (c.configured.registers 0).isBlackBox = false ∧
      c'.visitor.activeRegisters = [0] ∧ c'.shifted 0 = [false] ∧
      (c'.updated.registers 0).lastToSut = [true] :=
  ⟨_, _, rfl, rfl, rfl, rfl, rfl, rfl, rfl, rfl⟩

private theorem single_first {c : DataCycle}
    (hcycle : DataCycle.run none singleRoot singleChannel [false]
      (singleModel.setRegister 0 singleWritten) = .ok c) :
    Run (Scanned.step none singleRoot) single [.write 0 [true], .cycle c]
      ⟨c.updated, c.shift single.device⟩ :=
  .cons ⟨singleWritten, single_write, rfl⟩
    (.cons ⟨DataCycle.runs_of_run hcycle, rfl⟩ (.nil _))

end Mast
