import Mast.Retarget.Reconfigured

/-!
# What is left to do

What is left to do at a node of a tree of MIBs: one shift for a pending register, and for a linker the weight of the multiplexer with what is left on its paths. The registers of the selectors count with their linkers. Something is left exactly where something is pending.
-/

namespace Mast

open Multiplexers Outcome

variable {mibs : Nat → Mib} {s : SystemModel}

namespace Nodes

/-- The registers that a visit of siblings reaches. The gate tells which of them are visited, by their number. -/
def reached (mibs : Nat → Mib) (s : SystemModel) : (Nat → Bool) → Nat → Nodes → List Nat
  | _, _, none => []
  | gate, i, register id nextSibling =>
    (if gate i then [id] else []) ++ reached mibs s gate (i + 1) nextSibling
  | gate, i, parent (.linker _ _) id firstChild nextSibling =>
    (if gate i then
        reached mibs s
          ((mibs id).lever.opens (s.registers (mibs id).selectorRegister).lastToSut) 1 firstChild
      else []) ++ reached mibs s gate (i + 1) nextSibling
  | gate, i, parent _ _ firstChild nextSibling =>
    (if gate i then reached mibs s (fun _ => true) 1 firstChild else []) ++
      reached mibs s gate (i + 1) nextSibling

/-- The registers that are reached when the pending channels are visited one after the other. -/
def served (mibs : Nat → Mib) (s : SystemModel) : Nodes → List Nat
  | none => []
  | register id nextSibling =>
    (if (register id none).isPending s then
        reached mibs s (fun _ => true) 1 (register id none)
      else []) ++ nextSibling.served mibs s
  | parent kind id firstChild nextSibling =>
    (if (parent kind id firstChild none).isPending s then
        reached mibs s (fun _ => true) 1 (parent kind id firstChild none)
      else []) ++ nextSibling.served mibs s

def parts (mibs : Nat → Mib) (muxes : List Nat) (s : SystemModel) : Nodes → List Nat
  | none => []
  | register id nextSibling =>
    (if id ∈ muxes then 0 else (s.registers id).pendings) :: nextSibling.parts mibs muxes s
  | parent (.linker _ _) id firstChild nextSibling =>
    weight (s.registers (mibs id).selectorRegister).pendings
        ((mibs id).lever.opens (s.registers (mibs id).selectorRegister).lastToSut)
        (firstChild.parts mibs muxes s) ::
      nextSibling.parts mibs muxes s
  | parent _ _ firstChild nextSibling =>
    (firstChild.parts mibs muxes s).sum :: nextSibling.parts mibs muxes s

variable {muxes siblings : List Nat} {nodes : Nodes} {gate : Nat → Bool} {i : Nat}

theorem parts_length (mibs : Nat → Mib) (muxes : List Nat) (s : SystemModel) (nodes : Nodes) :
    (nodes.parts mibs muxes s).length = nodes.siblingsCount := by
  induction nodes with
  | none => rfl
  | register id nextSibling ih => exact congrArg Nat.succ ih
  | parent kind id firstChild nextSibling _ ih =>
    cases kind <;> exact congrArg Nat.succ ih

theorem reached_sublist : (nodes.reached mibs s gate i).Sublist nodes.registerIds := by
  induction nodes generalizing gate i with
  | none => exact List.Sublist.refl _
  | register id nextSibling ih =>
    rw [reached, registerIds]
    cases gate i with
    | true => exact (List.Sublist.refl [id]).append ih
    | false => exact ih.trans (List.sublist_cons_self _ _)
  | parent kind id firstChild nextSibling ihChild ihNext =>
    cases kind <;> refine List.Sublist.append ?_ ihNext <;> split
    all_goals first
      | exact ihChild
      | exact List.nil_sublist _

theorem reached_subset : nodes.reached mibs s gate i ⊆ nodes.registerIds := reached_sublist.subset

/-- What is reached depends on the registers of the selectors. -/
theorem reached_congr {s' : SystemModel} (hretargetable : nodes.Retargetable mibs siblings)
    (hsame : ∀ reg ∈ nodes.selectorRegisters, s'.registers reg = s.registers reg) :
    nodes.reached mibs s' gate i = nodes.reached mibs s gate i := by
  induction nodes generalizing siblings gate i with
  | none => rfl
  | register id nextSibling ih => rw [reached, reached, ih hretargetable hsame]
  | parent kind id firstChild nextSibling ihChild ihNext =>
    cases kind with
    | linker p keepOpen =>
      obtain ⟨⟨rfl, -⟩, hbelow, hnext⟩ := hretargetable
      obtain ⟨hboth, hlater⟩ := List.forall_mem_append.mp hsame
      obtain ⟨hown, hinner⟩ := List.forall_mem_append.mp hboth
      rw [reached, reached, hown _ List.mem_cons_self, ihChild hbelow hinner, ihNext hnext hlater]
    | chain =>
      obtain ⟨hinner, hlater⟩ := List.forall_mem_append.mp hsame
      rw [reached, reached, ihChild hretargetable.1 hinner, ihNext hretargetable.2 hlater]
      all_goals exact fun p keepOpen hkind => by cases hkind
    | _ => exact hretargetable.elim

theorem Splits.served {head tail : Nodes} (h : nodes.Splits head tail) :
    nodes.served mibs s =
      (if head.isPending s then head.reached mibs s (fun _ => true) 1 else []) ++
        tail.served mibs s := by
  cases h <;> rfl

theorem Splits.parts {head tail : Nodes} (h : nodes.Splits head tail) :
    ∃ part, head.parts mibs muxes s = [part] ∧
      nodes.parts mibs muxes s = part :: tail.parts mibs muxes s := by
  cases h with
  | register id nextSibling => exact ⟨_, rfl, rfl⟩
  | parent kind id firstChild nextSibling => cases kind <;> exact ⟨_, rfl, rfl⟩

/-! ### Where something is left -/

theorem pendings_ne_zero (r : Register) : r.pendings ≠ 0 ↔ r.isPending = true := by
  unfold Register.pendings
  split <;> simp [*]

theorem parts_sum_ne_zero (hretargetable : nodes.Retargetable mibs siblings) :
    (nodes.parts mibs muxes s).sum ≠ 0 ↔
      (∃ reg ∈ nodes.registerIds, reg ∉ muxes ∧ (s.registers reg).isPending = true) ∨
        ∃ reg ∈ nodes.selectorRegisters, (s.registers reg).isPending = true := by
  induction nodes generalizing siblings with
  | none => simp [parts, registerIds, selectorRegisters]
  | register id nextSibling ih =>
    have hnext := ih hretargetable
    rw [parts, List.sum_cons, registerIds, selectorRegisters]
    have hfirst : (if id ∈ muxes then 0 else (s.registers id).pendings) ≠ 0 ↔
        id ∉ muxes ∧ (s.registers id).isPending = true := by
      rw [← pendings_ne_zero]
      split <;> simp [*]
    rw [show ∀ a b : Nat, a + b ≠ 0 ↔ a ≠ 0 ∨ b ≠ 0 by omega, hfirst, hnext]
    simp only [List.mem_cons, exists_eq_or_imp, or_assoc]
  | parent kind id firstChild nextSibling ihChild ihNext =>
    have hsum : ∀ a b : Nat, a + b ≠ 0 ↔ a ≠ 0 ∨ b ≠ 0 := by omega
    have hnext := ihNext (Wired.retargetable_next hretargetable)
    cases kind with
    | linker p keepOpen =>
      obtain ⟨⟨rfl, -⟩, hbelow, -⟩ := hretargetable
      have hids : (mibs id).selector.muxRegisters.identifiers = [(mibs id).selectorRegister] := rfl
      rw [parts, List.sum_cons, registerIds, selectorRegisters, hids, hsum, weight_ne_zero,
        ihChild hbelow, hnext, pendings_ne_zero]
      simp only [List.mem_append, List.mem_singleton, or_and_right, exists_or, exists_eq_left,
        or_assoc, or_left_comm, or_comm]
    | chain =>
      rw [parts, List.sum_cons, registerIds, selectorRegisters, hsum, ihChild hretargetable.1,
        hnext]
      · simp only [List.mem_append, or_and_right, exists_or, or_assoc, or_left_comm]
      · exact fun p keepOpen hkind => by cases hkind
      · exact fun p keepOpen hkind => by cases hkind
    | _ => exact hretargetable.elim

/-- The registers among the nodes that are to drive a linker drive one of these nodes. -/
def Closed (muxes : List Nat) (nodes : Nodes) : Prop :=
  ∀ reg ∈ nodes.registerIds, reg ∈ muxes → reg ∈ nodes.selectorRegisters

theorem parts_sum_iff (hretargetable : nodes.Retargetable mibs siblings)
    (hclosed : nodes.Closed muxes) (hsubset : nodes.selectorRegisters ⊆ nodes.registerIds) :
    (nodes.parts mibs muxes s).sum ≠ 0 ↔ nodes.anyPending s = true := by
  rw [parts_sum_ne_zero hretargetable, anyPending, List.any_eq_true]
  constructor
  · intro hleft
    rcases hleft with ⟨reg, hreg, -, hpending⟩ | ⟨reg, hreg, hpending⟩
    · exact ⟨reg, hreg, hpending⟩
    · exact ⟨reg, hsubset hreg, hpending⟩
  · intro hpending
    obtain ⟨reg, hreg, hpending⟩ := hpending
    by_cases hmux : reg ∈ muxes
    · exact .inr ⟨reg, hclosed reg hreg hmux, hpending⟩
    · exact .inl ⟨reg, hreg, hmux, hpending⟩

/-! ### Below a parent node -/

section Below

variable {kind : ParentKind} {id : Nat} {firstChild nextSibling : Nodes}
  (hwired : (parent kind id firstChild nextSibling).Wired mibs siblings)
include hwired

theorem Wired.below : ∃ siblings', firstChild.Wired mibs siblings' ∧
    firstChild.selectorRegisters ⊆ firstChild.registerIds := by
  cases kind with
  | linker p keepOpen =>
    have hchild := hwired.child [] hwired.retargetable.2.1
      fun _ hreg => absurd hreg List.not_mem_nil
    exact ⟨[], hchild, hchild.selectorRegisters_subset⟩
  | chain =>
    have hchild := hwired.child _ hwired.retargetable.1 fun _ hreg => hreg
    refine ⟨_, hchild, fun reg hreg => ?_⟩
    rcases hchild.retargetable.selectorRegisters_subset hreg with hbeside | hinside
    · exact siblingRegisters_subset _ hbeside
    · exact hinside
  | _ => exact hwired.retargetable.elim

/-- The register of a linker is beside it. -/
theorem Wired.own_subset : ∃ own, (parent kind id firstChild nextSibling).selectorRegisters =
    own ++ (firstChild.selectorRegisters ++ nextSibling.selectorRegisters) ∧ own ⊆ siblings := by
  cases kind with
  | linker p keepOpen =>
    obtain ⟨⟨rfl, -, hbeside, -⟩, -⟩ := hwired.retargetable
    exact ⟨_, List.append_assoc _ _ _, List.cons_subset.mpr ⟨hbeside, List.nil_subset _⟩⟩
  | _ => exact ⟨[], rfl, List.nil_subset _⟩

end Below

/-! ### The channels -/

/-- The nodes are some of a tree. -/
structure Within (nodes channels : Nodes) : Prop where
  registerIds : nodes.registerIds ⊆ channels.registerIds
  linkers : nodes.linkers ⊆ channels.linkers
  parents : nodes.parents ⊆ channels.parents

theorem Splits.within {head tail channels : Nodes} (hsplits : nodes.Splits head tail)
    (h : nodes.Within channels) : head.Within channels ∧ tail.Within channels := by
  obtain ⟨hregisters, hlinkers, hparents⟩ := h
  rw [hsplits.registerIds, List.append_subset] at hregisters
  rw [hsplits.linkers, List.append_subset] at hlinkers
  rw [hsplits.parents, List.append_subset] at hparents
  exact ⟨⟨hregisters.1, hlinkers.1, hparents.1⟩, ⟨hregisters.2, hlinkers.2, hparents.2⟩⟩

theorem Within.child {kind : ParentKind} {id : Nat} {firstChild nextSibling channels : Nodes}
    (h : (parent kind id firstChild nextSibling).Within channels) : firstChild.Within channels := by
  refine ⟨(List.append_subset.mp h.registerIds).1, ?_,
    (List.append_subset.mp (List.cons_subset.mp h.parents).2).1⟩
  have hlinkers := h.linkers
  cases kind with
  | linker p keepOpen => exact (List.append_subset.mp (List.cons_subset.mp hlinkers).2).1
  | _ => exact (List.append_subset.mp hlinkers).1

/-- Siblings are visited one after the other. -/
@[elab_as_elim]
theorem splits_induction {motive : Nodes → Prop} (none : motive .none)
    (splits : ∀ {nodes head tail : Nodes}, nodes.Splits head tail → motive tail → motive nodes)
    (nodes : Nodes) : motive nodes := by
  induction nodes with
  | none => exact none
  | register id nextSibling ih => exact splits (.register id nextSibling) ih
  | parent kind id firstChild nextSibling _ ih =>
    exact splits (.parent kind id firstChild nextSibling) ih

theorem served_subset : nodes.served mibs s ⊆ nodes.registerIds := by
  induction nodes using splits_induction with
  | none => exact List.Subset.refl _
  | splits hsplits ih =>
    rw [hsplits.served, hsplits.registerIds]
    refine List.append_subset.mpr
      ⟨List.subset_append_of_subset_left _ ?_, List.subset_append_of_subset_right _ ih⟩
    split
    · exact reached_subset
    · exact List.nil_subset _

section Channels

variable {head tail : Nodes} (hsplits : nodes.Splits head tail) (hwired : nodes.Wired mibs [])
include hsplits hwired

theorem Splits.apart {reg : Nat} (hhead : reg ∈ head.registerIds) : reg ∉ tail.registerIds := by
  have hregisters := hwired.registers
  rw [hsplits.registerIds, List.nodup_append] at hregisters
  exact fun htail => hregisters.2.2 reg hhead reg htail rfl

theorem Splits.wired_head : head.Wired mibs [] := by
  have hregisters := hwired.registers
  have hparents := hwired.parents
  have hselectors := hwired.selectors
  rw [hsplits.registerIds, List.nodup_append] at hregisters
  rw [hsplits.parentIds, List.nodup_append] at hparents
  rw [hsplits.selectorRegisters, List.nodup_append] at hselectors
  exact ⟨(hsplits.retargetable hwired.retargetable).1, hregisters.1, hparents.1, hselectors.1,
    fun reg hreg => absurd hreg List.not_mem_nil⟩

theorem Splits.closed (hclosed : nodes.Closed muxes) : head.Closed muxes ∧ tail.Closed muxes := by
  have hinside := (hsplits.wired_head hwired).selectorRegisters_subset
  have hinside' := (hsplits.wired hwired).selectorRegisters_subset
  constructor
  · intro reg hreg hmux
    have hselector := hclosed reg (hsplits.registerIds ▸ List.mem_append_left _ hreg) hmux
    rw [hsplits.selectorRegisters, List.mem_append] at hselector
    exact hselector.resolve_right fun hlater => hsplits.apart hwired hreg (hinside' hlater)
  · intro reg hreg hmux
    have hselector := hclosed reg (hsplits.registerIds ▸ List.mem_append_right _ hreg) hmux
    rw [hsplits.selectorRegisters, List.mem_append] at hselector
    exact hselector.resolve_left fun hbefore => hsplits.apart hwired (hinside hbefore) hreg

end Channels

/-! ### Work and parts -/

/-- A register that is among siblings without registers beside them drives no linker. -/
theorem Wired.sibling_free (hwired : nodes.Wired mibs []) {reg : Nat}
    (hreg : reg ∈ nodes.siblingRegisters) : reg ∉ nodes.selectorRegisters := by
  induction nodes with
  | none => exact List.not_mem_nil
  | register id nextSibling ih =>
    have hnext := hwired.afterRegister
    rcases List.mem_cons.mp hreg with rfl | hlater
    · intro hselector
      exact (List.nodup_cons.mp hwired.registers).1 (hnext.selectorRegisters_subset hselector)
    · exact ih hnext hlater
  | parent kind id firstChild nextSibling _ ih =>
    have hnext := hwired.afterParent
    have hlater : reg ∈ nextSibling.siblingRegisters := hreg
    have hfree := ih hnext hlater
    cases kind with
    | linker p keepOpen => exact absurd hwired.retargetable.1.2.2.1 List.not_mem_nil
    | chain =>
      obtain ⟨siblings', -, hinside⟩ := hwired.below
      intro hselector
      rcases List.mem_append.mp hselector with hfirst | hrest
      · exact hwired.apart (hinside hfirst) (siblingRegisters_subset _ hlater)
      · exact hfree hrest
    | _ => exact hwired.retargetable.elim

/-- Below a linker, the paths with work are those where something is left. -/
theorem works_eq_parts (hwired : nodes.Wired mibs []) (hclosed : nodes.Closed muxes) :
    nodes.works s = (nodes.parts mibs muxes s).map (decide <| · ≠ 0) := by
  induction nodes with
  | none => rfl
  | register id nextSibling ih =>
    have hfree : id ∉ muxes := fun hmux =>
      hwired.sibling_free List.mem_cons_self (hclosed id List.mem_cons_self hmux)
    have hnext := ih hwired.afterRegister fun reg hreg hmux =>
      hclosed reg (List.mem_cons_of_mem _ hreg) hmux
    rw [works, parts, List.map_cons, hnext, if_neg hfree]
    congr 1
    exact Bool.eq_iff_iff.mpr ((pendings_ne_zero _).symm.trans decide_eq_true_iff.symm)
  | parent kind id firstChild nextSibling _ ih =>
    cases kind with
    | linker p keepOpen => exact absurd hwired.retargetable.1.2.2.1 List.not_mem_nil
    | chain =>
      obtain ⟨siblings', hbelow, hinside⟩ := hwired.below
      have hnext := ih hwired.afterParent fun reg hreg hmux => by
        have hboth := List.mem_append.mp (hclosed reg (List.mem_append_right _ hreg) hmux)
        refine hboth.resolve_left ?_
        exact fun hfirst => hwired.apart (hinside hfirst) hreg
      have hchild : firstChild.Closed muxes := fun reg hreg hmux => by
        have hboth := List.mem_append.mp (hclosed reg (List.mem_append_left _ hreg) hmux)
        refine hboth.resolve_right ?_
        exact fun hlater => hwired.apart hreg (hwired.afterParent.selectorRegisters_subset hlater)
      rw [works, parts, List.map_cons, hnext]
      · congr 1
        exact Bool.eq_iff_iff.mpr
          ((parts_sum_iff hbelow.retargetable hchild hinside).symm.trans decide_eq_true_iff.symm)
      · exact fun p keepOpen hkind => by cases hkind
    | _ => exact hwired.retargetable.elim

/-! ### The registers of selectors -/

theorem Wired.siblings_below (hwired : nodes.Wired mibs siblings) {id : Nat} {firstChild : Nodes}
    (hmem : (id, firstChild) ∈ nodes.parents) {reg : Nat} (hreg : reg ∈ siblings) :
    reg ∉ firstChild.registerIds := by
  induction nodes with
  | none => exact absurd hmem List.not_mem_nil
  | register other nextSibling ih => exact ih hwired.afterRegister hmem
  | parent kind other child nextSibling _ ih =>
    rcases List.mem_cons.mp hmem with heq | hmem
    · obtain ⟨rfl, rfl⟩ := Prod.mk.inj heq
      exact hwired.siblings_apart hreg
    · rcases List.mem_append.mp hmem with hinner | hlater
      · exact fun hbelow => hwired.siblings_apart hreg ((mem_parents hinner).2 hbelow)
      · exact ih hwired.afterParent hlater

/-- A register below a parent node drives no linker elsewhere. -/
theorem Wired.closed_below (hwired : nodes.Wired mibs siblings) {id : Nat} {firstChild : Nodes}
    (hmem : (id, firstChild) ∈ nodes.parents) : firstChild.Closed nodes.selectorRegisters := by
  induction nodes generalizing siblings with
  | none => exact absurd hmem List.not_mem_nil
  | register other nextSibling ih => exact ih hwired.afterRegister hmem
  | parent kind other child nextSibling ihChild ihNext =>
    obtain ⟨own, hown, hbeside⟩ := hwired.own_subset
    obtain ⟨siblings', hbelow, hinside⟩ := hwired.below
    intro reg hreg hmux
    rw [hown] at hmux
    rcases List.mem_append.mp hmux with hself | hmux
    · exact absurd hreg (hwired.siblings_below hmem (hbeside hself))
    rcases List.mem_cons.mp hmem with heq | hmem
    · obtain ⟨rfl, rfl⟩ := Prod.mk.inj heq
      exact (List.mem_append.mp hmux).resolve_right fun hlater => hwired.selectors_apart hlater hreg
    · rcases List.mem_append.mp hmem with hinner | hlater
      · have hchild := (mem_parents hinner).2 hreg
        refine ihChild hbelow hinner reg hreg
          ((List.mem_append.mp hmux).resolve_right fun hrest => ?_)
        exact hwired.selectors_apart hrest hchild
      · have hnext := (mem_parents hlater).2 hreg
        refine ihNext hwired.afterParent hlater reg hreg
          ((List.mem_append.mp hmux).resolve_left fun hfirst => ?_)
        exact hwired.apart (hinside hfirst) hnext

end Nodes

end Mast
