import Mast.Generator.Ends
import Mast.Lib.Forests

/-!
# How the tree grows

A stretch of the walk puts a forest in front of the children of the parent node of its context, and another on the stack of created nodes. Every chain of the two is new, and no other node gets children.
-/

namespace Mast

namespace Generator

open Forests

variable {n : Nat} {s s' s'' : State n} {parent : Node n} {m : Fin n} {name : String}
  {before before' stacked stacked' inner : Forest (Node n)}

namespace State

/-- The node is the chain of the top module or one that an instance has. -/
def Attached (s : State n) (node : Node n) : Prop :=
  ∀ m name, node = .chain m name → (m, name) ∈ s.associatedChains

/-- Chains that no instance has yet have no children. -/
def NoChildrenYet (s : State n) : Prop :=
  ∀ m name, (m, name) ∉ s.associatedChains → s.children (.chain m name) = []

/-- Forests in front of the children of a parent and on the stack. -/
structure Grows (s s' : State n) (parent : Node n) (before stacked : Forest (Node n)) : Prop where
  front : s'.children parent = before.heads ++ s.children parent
  created : s'.createdNodes = stacked.heads ++ s.createdNodes
  unfolds : (before ++ stacked).Unfolds Node.isRegister s'.children
  elsewhere : ∀ node, node ≠ parent → node ∉ (before ++ stacked).branches →
    s'.children node = s.children node
  fresh : ∀ node ∈ (before ++ stacked).branches, ∃ m name, node = .chain m name ∧
    (m, name) ∉ s.associatedChains
  chains : ∀ m name, (m, name) ∈ s'.associatedChains ↔
    (m, name) ∈ s.associatedChains ∨ .chain m name ∈ (before ++ stacked).branches

theorem Grows.refl (s : State n) (parent : Node n) : s.Grows s parent .nil .nil where
  front := rfl
  created := rfl
  unfolds := trivial
  elsewhere := fun _ _ _ => rfl
  fresh := fun _ hmem => absurd hmem List.not_mem_nil
  chains := fun _ _ => by simp

theorem Grows.attached (hgrows : s.Grows s' parent before stacked) {node : Node n}
    (hattached : s.Attached node) : s'.Attached node :=
  fun m name hnode => (hgrows.chains m name).mpr (.inl (hattached m name hnode))

theorem Grows.parent_not_branch (hgrows : s.Grows s' parent before stacked)
    (hattached : s.Attached parent) : parent ∉ (before ++ stacked).branches := by
  intro hmem
  obtain ⟨m, name, hnode, hnew⟩ := hgrows.fresh parent hmem
  exact hnew (hattached m name hnode)

theorem Grows.noChildrenYet (hgrows : s.Grows s' parent before stacked)
    (hattached : s.Attached parent) (hempty : s.NoChildrenYet) : s'.NoChildrenYet := by
  intro m name hnew
  have hchains := hgrows.chains m name
  have hold : (m, name) ∉ s.associatedChains := fun hmem => hnew (hchains.mpr (.inl hmem))
  rw [hgrows.elsewhere]
  · exact hempty m name hold
  · intro hnode
    exact hold (hattached m name hnode.symm)
  · intro hmem
    exact hnew (hchains.mpr (.inr hmem))

theorem Grows.trans (hgrows : s.Grows s' parent before stacked) (hattached : s.Attached parent)
    (hgrows' : s'.Grows s'' parent before' stacked') :
    s.Grows s'' parent (before' ++ before) (stacked' ++ stacked) := by
  have hnew (node : Node n) (hmem : node ∈ (before ++ stacked).branches) :
      node ∉ (before' ++ stacked').branches := by
    intro hmem'
    obtain ⟨m, name, rfl, -⟩ := hgrows.fresh node hmem
    obtain ⟨m', name', hnode, hnot⟩ := hgrows'.fresh _ hmem'
    cases hnode
    exact hnot ((hgrows.chains m name).mpr (.inr hmem))
  have hparent := hgrows.parent_not_branch hattached
  have hold : (before ++ stacked).Unfolds Node.isRegister s''.children :=
    hgrows.unfolds.congr fun node hmem => hgrows'.elsewhere node
      (fun heq => hparent (heq ▸ hmem)) (hnew node hmem)
  have hmem (node : Node n) :
      node ∈ ((before' ++ before) ++ (stacked' ++ stacked)).branches ↔
        node ∈ (before ++ stacked).branches ∨ node ∈ (before' ++ stacked').branches := by
    simp only [Forest.branches_append, List.mem_append]
    tauto
  constructor
  · rw [hgrows'.front, hgrows.front, Forest.heads_append, List.append_assoc]
  · rw [hgrows'.created, hgrows.created, Forest.heads_append, List.append_assoc]
  · have hlate := hgrows'.unfolds
    simp only [Forest.unfolds_append] at hold hlate ⊢
    exact ⟨⟨hlate.1, hold.1⟩, hlate.2, hold.2⟩
  · intro node hne hnot
    rw [hmem, not_or] at hnot
    rw [hgrows'.elsewhere node hne hnot.2, hgrows.elsewhere node hne hnot.1]
  · intro node hnode
    rcases (hmem node).mp hnode with hfirst | hsecond
    · exact hgrows.fresh node hfirst
    · obtain ⟨m, name, hchain, hnot⟩ := hgrows'.fresh node hsecond
      exact ⟨m, name, hchain, fun hin => hnot ((hgrows.chains m name).mpr (.inl hin))⟩
  · intro m name
    rw [hgrows'.chains, hgrows.chains, hmem, or_assoc]

/-- What `AssignNewNode` does with a node: below the top module it is prepended to the parent node, and there it is stacked. -/
structure Assigned (s s' : State n) (deep : Bool) (parent node : Node n) : Prop where
  children : s'.children =
    if deep then Function.update s.children parent (node :: s.children parent) else s.children
  createdNodes : s'.createdNodes = if deep then s.createdNodes else node :: s.createdNodes

end State

/-- The forest, under a condition. -/
def onlyIf (condition : Bool) (f : Forest (Node n)) : Forest (Node n) :=
  if condition then f else .nil

namespace State

theorem onlyIf_split (deep : Bool) (f : Forest (Node n)) :
    onlyIf deep f ++ onlyIf (!deep) f = f := by
  cases deep with
  | true => exact Forest.append_nil f
  | false => rfl

theorem Assigned.heads_before {deep : Bool} {node : Node n} {f : Forest (Node n)}
    (hassigned : s.Assigned s' deep parent node) (hheads : f.heads = [node]) :
    s'.children parent = (onlyIf deep f).heads ++ s.children parent := by
  rw [hassigned.children]
  cases deep with
  | true =>
    simp only [if_true, Function.update_self]
    exact (congrArg (· ++ s.children parent) hheads).symm
  | false => rfl

theorem Assigned.heads_stacked {deep : Bool} {node : Node n} {f : Forest (Node n)}
    (hassigned : s.Assigned s' deep parent node) (hheads : f.heads = [node]) :
    s'.createdNodes = (onlyIf (!deep) f).heads ++ s.createdNodes := by
  rw [hassigned.createdNodes]
  cases deep with
  | true => rfl
  | false => exact (congrArg (· ++ s.createdNodes) hheads).symm

theorem Assigned.elsewhere {deep : Bool} {node other : Node n}
    (hassigned : s.Assigned s' deep parent node) (hne : other ≠ parent) :
    s'.children other = s.children other := by
  rw [hassigned.children]
  cases deep with
  | true => exact Function.update_of_ne hne _ _
  | false => rfl

theorem Assigned.grows_register {deep : Bool} {bypassValue : Bits}
    (hassigned : s.Assigned s' deep parent (.register m name bypassValue))
    (hchains : s'.associatedChains = s.associatedChains) :
    s.Grows s' parent (onlyIf deep (.leaf (.register m name bypassValue) .nil))
      (onlyIf (!deep) (.leaf (.register m name bypassValue) .nil)) := by
  constructor
  · exact hassigned.heads_before rfl
  · exact hassigned.heads_stacked rfl
  · rw [onlyIf_split]
    exact ⟨rfl, trivial⟩
  · intro node hne _
    exact hassigned.elsewhere hne
  · intro node hmem
    rw [onlyIf_split] at hmem
    exact absurd hmem List.not_mem_nil
  · intro m' name'
    rw [onlyIf_split, hchains]
    simp

theorem Assigned.grows_chain {deep : Bool} (hnew : (m, name) ∉ s.associatedChains)
    (hempty : s.NoChildrenYet) (hattached : s.Attached parent)
    (hassigned : s.Assigned s' deep parent (.chain m name))
    (hchains : s'.associatedChains = insert (m, name) s.associatedChains)
    (hinner : s'.Grows s'' (.chain m name) inner .nil) :
    s.Grows s'' parent (onlyIf deep (.branch (.chain m name) inner .nil))
      (onlyIf (!deep) (.branch (.chain m name) inner .nil)) := by
  have hparent : parent ≠ .chain m name := fun heq => hnew (hattached m name heq)
  have hinnerUnfolds := hinner.unfolds
  have hinnerFresh := hinner.fresh
  have hinnerElsewhere := hinner.elsewhere
  rw [Forest.append_nil] at hinnerUnfolds hinnerFresh hinnerElsewhere
  have hfresh : ∀ node ∈ inner.branches, ∃ m name, node = .chain m name ∧
      (m, name) ∉ s.associatedChains := by
    intro node hmem
    obtain ⟨m', name', hchain, hnot⟩ := hinnerFresh node hmem
    rw [hchains] at hnot
    exact ⟨m', name', hchain, fun hin => hnot (Finset.mem_insert_of_mem hin)⟩
  have hnotInner : parent ∉ inner.branches := by
    intro hmem
    obtain ⟨m', name', hchain, hnot⟩ := hfresh parent hmem
    exact hnot (hattached m' name' hchain)
  have hbranches : (Forest.branch (.chain m name) inner .nil).branches =
      .chain m name :: inner.branches := by
    rw [Forest.branches_branch, Forest.branches_nil, List.append_nil]
  constructor
  · rw [hinnerElsewhere parent hparent hnotInner]
    exact hassigned.heads_before rfl
  · rw [hinner.created]
    exact hassigned.heads_stacked rfl
  · rw [onlyIf_split]
    refine ⟨rfl, ?_, hinnerUnfolds, trivial⟩
    rw [hinner.front, hassigned.elsewhere hparent.symm, hempty m name hnew, List.append_nil]
  · intro node hne hnot
    rw [onlyIf_split, hbranches, List.mem_cons, not_or] at hnot
    rw [hinnerElsewhere node hnot.1 hnot.2, hassigned.elsewhere hne]
  · intro node hmem
    rw [onlyIf_split, hbranches, List.mem_cons] at hmem
    rcases hmem with rfl | hmem
    · exact ⟨m, name, rfl, hnew⟩
    · exact hfresh node hmem
  · intro m' name'
    rw [onlyIf_split, hbranches, hinner.chains, hchains, Finset.mem_insert, Forest.append_nil,
      List.mem_cons, Node.chain.injEq, Prod.mk.injEq]
    tauto

end State

end Generator

end Mast
