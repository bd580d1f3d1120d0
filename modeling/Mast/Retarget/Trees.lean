import Mast.Retarget.Decisions
import Mast.Scan.PendingCounts

/-!
# Trees of MIBs

In a tree made with `Create_MIB` and `Create_SIB` every linker has the register of its selector beside it, before or after it in the same chain, so that the register is shifted whenever the linker is reached. The children of a linker are registers and chains.
-/

namespace Mast

namespace Nodes

def siblingRegisters : Nodes → List Nat
  | none => []
  | register id nextSibling => id :: nextSibling.siblingRegisters
  | parent _ _ _ nextSibling => nextSibling.siblingRegisters

def siblingsCount : Nodes → Nat
  | none => 0
  | register _ nextSibling => nextSibling.siblingsCount + 1
  | parent _ _ _ nextSibling => nextSibling.siblingsCount + 1

def linkers : Nodes → List (Nat × Nodes)
  | none => []
  | register _ nextSibling => nextSibling.linkers
  | parent (.linker _ _) id firstChild nextSibling =>
    (id, firstChild) :: firstChild.linkers ++ nextSibling.linkers
  | parent _ _ firstChild nextSibling => firstChild.linkers ++ nextSibling.linkers

/-- Every linker is that of a MIB, among siblings with the given registers. -/
def Retargetable (mibs : Nat → Mib) : List Nat → Nodes → Prop
  | _, none => True
  | siblings, register _ nextSibling => Retargetable mibs siblings nextSibling
  | siblings, parent (.linker p keepOpen) id firstChild nextSibling =>
    (p = (mibs id).selector ∧ keepOpen = false ∧ (mibs id).selectorRegister ∈ siblings ∧
      firstChild.siblingsCount = (mibs id).paths) ∧
    Retargetable mibs [] firstChild ∧ Retargetable mibs siblings nextSibling
  | siblings, parent .chain _ firstChild nextSibling =>
    Retargetable mibs firstChild.siblingRegisters firstChild ∧
      Retargetable mibs siblings nextSibling
  | _, parent _ _ _ _ => False

def anyPending (s : SystemModel) (nodes : Nodes) : Bool :=
  nodes.registerIds.any fun id => (s.registers id).isPending

def works (s : SystemModel) : Nodes → List Bool
  | none => []
  | register id nextSibling => (s.registers id).isPending :: nextSibling.works s
  | parent _ _ firstChild nextSibling => firstChild.anyPending s :: nextSibling.works s

variable {mibs : Nat → Mib} {siblings : List Nat}

theorem works_length (s : SystemModel) (nodes : Nodes) :
    (nodes.works s).length = nodes.siblingsCount := by
  induction nodes with
  | none => rfl
  | register id nextSibling ih => exact congrArg Nat.succ ih
  | parent kind id firstChild nextSibling _ ih => exact congrArg Nat.succ ih

theorem siblingRegisters_subset (nodes : Nodes) : nodes.siblingRegisters ⊆ nodes.registerIds := by
  induction nodes with
  | none => exact List.nil_subset _
  | register id nextSibling ih => exact List.cons_subset_cons id ih
  | parent kind id firstChild nextSibling _ ih => exact List.subset_append_of_subset_right _ ih

theorem anyPending_of_isPending {s s' : SystemModel} {nodes : Nodes}
    (hsame : ∀ id ∈ nodes.registerIds, (s'.registers id).isPending = (s.registers id).isPending) :
    nodes.anyPending s' = nodes.anyPending s := by
  unfold anyPending
  rw [Bool.eq_iff_iff, List.any_eq_true, List.any_eq_true]
  refine exists_congr fun id => and_congr_right fun hid => ?_
  rw [hsame id hid]

theorem works_of_isPending {s s' : SystemModel} {nodes : Nodes}
    (hsame : ∀ id ∈ nodes.registerIds, (s'.registers id).isPending = (s.registers id).isPending) :
    nodes.works s' = nodes.works s := by
  induction nodes with
  | none => rfl
  | register id nextSibling ih =>
    rw [works, works, hsame id List.mem_cons_self,
      ih fun other hother => hsame other (List.mem_cons_of_mem _ hother)]
  | parent kind id firstChild nextSibling _ ih =>
    rw [works, works, anyPending_of_isPending fun id hid => hsame id (List.mem_append_left _ hid),
      ih fun other hother => hsame other (List.mem_append_right _ hother)]

theorem anyPending_congr {s s' : SystemModel} {nodes : Nodes}
    (hsame : ∀ id ∈ nodes.registerIds, s'.registers id = s.registers id) :
    nodes.anyPending s' = nodes.anyPending s :=
  anyPending_of_isPending fun id hid => congrArg Register.isPending (hsame id hid)

theorem works_congr {s s' : SystemModel} {nodes : Nodes}
    (hsame : ∀ id ∈ nodes.registerIds, s'.registers id = s.registers id) :
    nodes.works s' = nodes.works s :=
  works_of_isPending fun id hid => congrArg Register.isPending (hsame id hid)

theorem linkers_subset (nodes : Nodes) : nodes.linkers ⊆ nodes.parents := by
  induction nodes with
  | none => exact List.nil_subset _
  | register id nextSibling ih => exact ih
  | parent kind id firstChild nextSibling ihChild ih =>
    have hboth : firstChild.linkers ++ nextSibling.linkers ⊆
        firstChild.parents ++ nextSibling.parents :=
      List.append_subset.mpr ⟨List.subset_append_of_subset_left _ ihChild,
        List.subset_append_of_subset_right _ ih⟩
    cases kind with
    | linker p keepOpen => exact List.cons_subset_cons _ hboth
    | _ => exact List.subset_cons_of_subset _ hboth

theorem Retargetable.selectorRegisters_eq {nodes : Nodes} (h : nodes.Retargetable mibs siblings) :
    nodes.selectorRegisters = nodes.linkers.map fun linker => (mibs linker.1).selectorRegister := by
  induction nodes generalizing siblings with
  | none => rfl
  | register id nextSibling ih => exact ih h
  | parent kind id firstChild nextSibling ihChild ih =>
    cases kind with
    | linker p keepOpen =>
      obtain ⟨⟨rfl, -⟩, hchild, hnext⟩ := h
      rw [selectorRegisters, linkers, List.cons_append, List.map_cons, List.map_append,
        ihChild hchild, ih hnext]
      rfl
    | chain =>
      obtain ⟨hchild, hnext⟩ := h
      rw [selectorRegisters, linkers, List.map_append, ihChild hchild, ih hnext]
      · exact fun p keepOpen hkind => by cases hkind
      · exact fun p keepOpen hkind => by cases hkind
    | _ => exact h.elim

/-- The register of a selector is beside its linker. -/
theorem Retargetable.selectorRegisters_subset {nodes : Nodes}
    (h : nodes.Retargetable mibs siblings) {reg : Nat} (hreg : reg ∈ nodes.selectorRegisters) :
    reg ∈ siblings ∨ reg ∈ nodes.registerIds := by
  induction nodes generalizing siblings with
  | none => cases hreg
  | register id nextSibling ih => exact (ih h hreg).imp_right (List.mem_cons_of_mem _)
  | parent kind id firstChild nextSibling ihChild ih =>
    have hsplit : (∃ p keepOpen, kind = .linker p keepOpen ∧ reg ∈ p.muxRegisters.identifiers) ∨
        reg ∈ firstChild.selectorRegisters ∨ reg ∈ nextSibling.selectorRegisters := by
      cases kind with
      | linker p keepOpen =>
        rcases List.mem_append.mp hreg with hfirst | hnext
        · exact (List.mem_append.mp hfirst).imp (fun hmux => ⟨p, keepOpen, rfl, hmux⟩) .inl
        · exact .inr (.inr hnext)
      | _ => exact .inr (List.mem_append.mp hreg)
    rcases hsplit with ⟨p, keepOpen, rfl, hmux⟩ | hchild | hnext
    · obtain ⟨⟨rfl, -, hbeside, -⟩, -⟩ := h
      rw [List.mem_singleton.mp hmux]
      exact .inl hbeside
    · right
      rw [registerIds, List.mem_append]
      left
      cases kind with
      | linker p keepOpen => exact (ihChild h.2.1 hchild).resolve_left List.not_mem_nil
      | chain =>
        exact (ihChild h.1 hchild).elim (fun hmem => siblingRegisters_subset _ hmem)
          fun hmem => hmem
      | _ => exact h.elim
    · have hrest : nextSibling.Retargetable mibs siblings := by
        cases kind with
        | linker p keepOpen => exact h.2.2
        | chain => exact h.2
        | _ => exact h.elim
      exact (ih hrest hnext).imp_right fun hmem => List.mem_append_right _ hmem

/-! ### Trees without sharing -/

/-- The nodes are different, each selector has a register of its own, and the registers beside the nodes are not deeper among them. -/
structure Wired (mibs : Nat → Mib) (siblings : List Nat) (nodes : Nodes) : Prop where
  retargetable : nodes.Retargetable mibs siblings
  registers : nodes.registerIds.Nodup
  parents : nodes.parentIds.Nodup
  selectors : nodes.selectorRegisters.Nodup
  beside (reg : Nat) : reg ∈ siblings → reg ∈ nodes.registerIds → reg ∈ nodes.siblingRegisters

namespace Wired

variable {id : Nat} {kind : ParentKind} {firstChild nextSibling : Nodes}

theorem afterRegister (h : Wired mibs siblings (register id nextSibling)) :
    Wired mibs siblings nextSibling where
  retargetable := h.retargetable
  registers := (List.nodup_cons.mp h.registers).2
  parents := h.parents
  selectors := h.selectors
  beside reg hreg hmem := by
    rcases List.mem_cons.mp (h.beside reg hreg (List.mem_cons_of_mem _ hmem)) with rfl | hlater
    · exact absurd hmem (List.nodup_cons.mp h.registers).1
    · exact hlater

theorem retargetable_next (h : (parent kind id firstChild nextSibling).Retargetable mibs siblings) :
    nextSibling.Retargetable mibs siblings := by
  cases kind with
  | linker p keepOpen => exact h.2.2
  | chain => exact h.2
  | _ => exact h.elim

theorem selectors_append (kind : ParentKind) (id : Nat) (firstChild nextSibling : Nodes) :
    ∃ own, (parent kind id firstChild nextSibling).selectorRegisters =
      own ++ (firstChild.selectorRegisters ++ nextSibling.selectorRegisters) := by
  cases kind with
  | linker p keepOpen => exact ⟨p.muxRegisters.identifiers, List.append_assoc _ _ _⟩
  | _ => exact ⟨[], rfl⟩

variable (h : Wired mibs siblings (parent kind id firstChild nextSibling))
include h

theorem apart {reg : Nat} (hfirst : reg ∈ firstChild.registerIds)
    (hnext : reg ∈ nextSibling.registerIds) : False :=
  (List.nodup_append.mp h.registers).2.2 reg hfirst reg hnext rfl

theorem afterParent : Wired mibs siblings nextSibling := by
  have hparents := (List.nodup_cons.mp h.parents).2
  obtain ⟨own, hown⟩ := selectors_append kind id firstChild nextSibling
  have hselectors := h.selectors
  rw [hown] at hselectors
  exact ⟨retargetable_next h.retargetable, (List.nodup_append.mp h.registers).2.1,
    (List.nodup_append.mp hparents).2.1,
    (List.nodup_append.mp (List.nodup_append.mp hselectors).2.1).2.1,
    fun reg hreg hmem => h.beside reg hreg (List.mem_append_right _ hmem)⟩

theorem siblings_apart {reg : Nat} (hreg : reg ∈ siblings) : reg ∉ firstChild.registerIds := by
  intro hfirst
  have hbeside : reg ∈ nextSibling.siblingRegisters :=
    h.beside reg hreg (List.mem_append_left _ hfirst)
  exact h.apart hfirst (siblingRegisters_subset _ hbeside)

theorem selectors_apart {reg : Nat} (hreg : reg ∈ nextSibling.selectorRegisters) :
    reg ∉ firstChild.registerIds := by
  rcases h.afterParent.retargetable.selectorRegisters_subset hreg with hbeside | hnext
  · exact h.siblings_apart hbeside
  · exact fun hfirst => h.apart hfirst hnext

theorem child (hbelow : List Nat) (hchild : firstChild.Retargetable mibs hbelow)
    (hbeside : ∀ reg ∈ hbelow, reg ∈ firstChild.siblingRegisters) :
    Wired mibs hbelow firstChild := by
  have hparents := (List.nodup_cons.mp h.parents).2
  obtain ⟨own, hown⟩ := selectors_append kind id firstChild nextSibling
  have hselectors := h.selectors
  rw [hown] at hselectors
  exact ⟨hchild, (List.nodup_append.mp h.registers).1, (List.nodup_append.mp hparents).1,
    (List.nodup_append.mp (List.nodup_append.mp hselectors).2.1).1,
    fun reg hreg _ => hbeside reg hreg⟩

end Wired

end Nodes

end Mast
