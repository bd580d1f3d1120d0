import Mast.Checker.Tree
import Mast.Lib.DepthFirst

/-!
# What the checker should say of a graph

A graph is a tree when every node has one parent at most, the root has none, and the nodes below the root are the managed ones. `Checkable` says when the checker can find that out: its loops have a guard against managed nodes that come again, and no other. Which of two parents finds a node first is a matter of the depth-first order, so that the condition on circles is one on the places at which a depth-first search of the links arrives.
-/

namespace Mast.NodeGraph

open Relation SiblingLists

variable (g : NodeGraph)

def ChildOf (p n : Nat) : Prop :=
  g.isParent p = true ∧ ∃ front, Leads g.nextSibling (g.firstChild p) front (some n)

def Reached (root : Nat) : Nat → Prop :=
  ReflTransGen g.ChildOf root

/-- The lists of children below the root make a tree of the root and the managed nodes. A list of children that ends passes each of them once. -/
structure FormsTree (root : Nat) : Prop where
  ends : ∀ p, g.Reached root p → g.isParent p = true →
    ∃ children, Leads g.nextSibling (g.firstChild p) children none
  oneParent : ∀ p q n, g.Reached root p → g.Reached root q → g.ChildOf p n → g.ChildOf q n → p = q
  top : ∀ p, g.Reached root p → ¬g.ChildOf p root
  managed : ∀ n, n ≠ root → (g.Managed n ↔ g.Reached root n)

/-- The tree of a model, which is empty without a root. -/
def IsTree : Prop :=
  match g.root with
  | none => ∀ n, ¬g.Managed n
  | some root => g.FormsTree root

/-! ### Circles -/

/-- A child that is passed again without notice: the parent itself, or a node that is not managed. -/
def Unnoticed (p n : Nat) : Prop :=
  n = p ∨ ¬g.Managed n

/-- From a child of a parent to the next one, without notice. -/
def SiblingStep (p n m : Nat) : Prop :=
  g.Unnoticed p n ∧ g.nextSibling n = some m

instance (p n : Nat) : Decidable (g.Unnoticed p n) :=
  inferInstanceAs (Decidable (_ ∨ _))

/-- The children that `CheckParentNode` visits below a node. -/
def below (n : Nat) : Option Nat :=
  if g.isParent n then g.firstChild n else none

/-- A parent with the child that is come to along a link. -/
def places (p : Nat) (link : Option Nat) : List (Nat × Nat) :=
  link.toList.map fun n => (p, n)

/-- The depth-first search of the links: from a child to its own children, then to the next one. It leaves a list at a child that it notices for the second time. -/
def search : DepthFirst.Graph (Nat × Nat) Nat where
  next := fun (p, n) =>
    (if n = p then [] else places n (g.below n)) ++ places p (g.nextSibling n)
  mark := fun (p, n) => if g.Unnoticed p n then none else some n

def Arrives (root : Nat) (x : Nat × Nat) : Prop :=
  g.search.Arrives ⟨places root (g.below root), []⟩ x

/-- A list of children that `DirectChildrenCount` counts. -/
def Counted (n : Nat) : Prop :=
  ∃ children, Leads g.nextSibling (g.firstChild n) children none ∧ children.length ≤ 10000

/-- The lists that are counted end in time. -/
structure Counts (root : Nat) : Prop where
  linkers : ∀ n selector, g.Reached root n → g.kind n = .linker selector → g.Counted n
  rootInterface : ∀ protocol, g.kind root = .accessInterface (some protocol) → g.Counted root
  rootChain : g.kind root = .chain →
    ∃ children, Leads g.nextSibling (g.firstChild root) children none ∧
      ∀ n ∈ children, ∀ protocol, g.kind n = .accessInterface (some protocol) → g.Counted n

/-- What the checker can find its way through. -/
structure Checkable (root : Nat) : Prop extends g.Counts root where
  noCircle : ∀ x, g.Arrives root x → ¬g.search.OnCircle x

/-- No child that is reached is passed in a circle without notice. -/
def NoCircle (root : Nat) : Prop :=
  ∀ p n, g.Reached root p → g.ChildOf p n → ¬g.search.OnCircle (p, n)

/-- A managed node that has been appended into itself after a managed node with another parent. -/
def SharedFront (root : Nat) : Prop :=
  ∃ p q m front, g.Reached root p ∧ g.isParent p = true ∧ g.Managed p ∧
    Leads g.nextSibling (g.firstChild p) front (some p) ∧
    m ∈ front ∧ m ≠ p ∧ g.Managed m ∧ q ≠ p ∧ g.Reached root q ∧ g.ChildOf q m

/-! ### The links -/

variable {g} {root p q n m : Nat}

theorem ChildOf.lt (h : g.ChildOf p n) : n < g.nodesCount := by
  obtain ⟨-, front, hfront⟩ := h
  rcases List.eq_nil_or_concat front with rfl | ⟨before, last, rfl⟩
  · exact g.firstChild_lt p n hfront
  · rw [List.concat_eq_append] at hfront
    exact g.nextSibling_lt last n hfront.next_last

theorem ChildOf.next (h : g.ChildOf p n) (hm : g.nextSibling n = some m) : g.ChildOf p m := by
  obtain ⟨hparent, front, hfront⟩ := h
  exact ⟨hparent, front ++ [n], leads_append.mpr ⟨some n, hfront, rfl, hm⟩⟩

theorem below_eq_some : g.below n = some m ↔ g.isParent n = true ∧ g.firstChild n = some m := by
  rw [below]
  split
  · rename_i hparent
    simp [hparent]
  · rename_i hparent
    simp [hparent]

@[simp] theorem mem_places {x : Nat × Nat} {link : Option Nat} :
    x ∈ places p link ↔ x.1 = p ∧ link = some x.2 := by
  obtain ⟨q, a⟩ := x
  rw [places, List.mem_map]
  constructor
  · rintro ⟨b, hb, hx⟩
    cases hx
    exact ⟨rfl, Option.mem_toList.mp hb⟩
  · rintro ⟨rfl, rfl⟩
    exact ⟨a, Option.mem_toList.mpr rfl, rfl⟩

theorem passes_iff {x : Nat × Nat} :
    g.search.Passes (p, n) x ↔
      (x.1 = p ∧ g.SiblingStep p n x.2) ∨
        (x.1 = n ∧ n ≠ p ∧ ¬g.Managed n ∧ g.below n = some x.2) := by
  have hmark : g.search.mark (p, n) = none ↔ g.Unnoticed p n := by
    simp [search]
  have hnext : x ∈ g.search.next (p, n) ↔
      (n ≠ p ∧ x.1 = n ∧ g.below n = some x.2) ∨ (x.1 = p ∧ g.nextSibling n = some x.2) := by
    by_cases hne : n = p
    · simp [search, hne]
    · simp [search, hne]
  rw [DepthFirst.Graph.Passes, hmark, hnext, SiblingStep, Unnoticed]
  tauto

theorem childOf_first (hparent : g.isParent p = true) (hn : g.firstChild p = some n) :
    g.ChildOf p n :=
  ⟨hparent, [], hn⟩

theorem Reached.child (hp : g.Reached root p) (hn : g.ChildOf p n) : g.Reached root n :=
  ReflTransGen.tail hp hn

theorem Reached.lt (hroot : g.root = some root) (hp : g.Reached root p) : p < g.nodesCount := by
  rcases hp.cases_tail with rfl | ⟨q, -, hq⟩
  · exact g.root_lt p hroot
  · exact hq.lt

theorem Managed.inj (hn : g.Managed n) (hm : g.Managed m) (hid : g.identifier n = g.identifier m) :
    n = m := by
  rw [Managed, hid] at hn
  exact Option.some.inj (Option.some.inj (hn.symm.trans hm))

theorem mem_of_leads {front children : List Nat} {start : Option Nat}
    (hfront : Leads g.nextSibling start front (some n))
    (hchildren : Leads g.nextSibling start children none) : n ∈ children := by
  induction front generalizing start children with
  | nil =>
    cases children with
    | nil => cases hfront.symm.trans hchildren
    | cons a children =>
      rw [Option.some.inj (hfront.symm.trans hchildren.1)]
      exact List.mem_cons_self
  | cons a front ih =>
    cases children with
    | nil => cases hfront.1.symm.trans hchildren
    | cons b children =>
      obtain rfl := Option.some.inj (hfront.1.symm.trans hchildren.1)
      exact List.mem_cons_of_mem _ (ih hfront.2 hchildren.2)

theorem childOf_iff {children : List Nat} (hparent : g.isParent p = true)
    (hchildren : Leads g.nextSibling (g.firstChild p) children none) :
    g.ChildOf p n ↔ n ∈ children := by
  constructor
  · intro ⟨_, front, hfront⟩
    exact mem_of_leads hfront hchildren
  · intro hn
    obtain ⟨front, rest, rfl⟩ := List.append_of_mem hn
    obtain ⟨middle, hfront, hmiddle, -⟩ := leads_append.mp hchildren
    exact ⟨hparent, front, hmiddle ▸ hfront⟩

theorem FormsTree.not_childOf_self (htree : g.FormsTree root) (hp : g.Reached root p) :
    ¬g.ChildOf p p := by
  induction hp with
  | refl => exact htree.top root ReflTransGen.refl
  | tail hq hchild ih =>
    rename_i q p
    intro hself
    have hsame := htree.oneParent q p p hq (ReflTransGen.tail hq hchild) hchild hself
    subst hsame
    exact ih hchild

/-! ### Counting -/

theorem countSiblings_eq_ok {room count total : Nat} {start : Option Nat} :
    g.countSiblings room count start = .ok total ↔
      ∃ children, Leads g.nextSibling start children none ∧ children.length ≤ room ∧
        total = count + children.length := by
  induction room generalizing count start with
  | zero =>
    cases start with
    | none =>
      constructor
      · intro h
        cases h
        exact ⟨[], rfl, Nat.le_refl 0, rfl⟩
      · rintro ⟨children, -, hlength, rfl⟩
        obtain rfl := List.length_eq_zero_iff.mp (Nat.le_zero.mp hlength)
        rfl
    | some child =>
      constructor
      · nofun
      · rintro ⟨children, hleads, hlength, -⟩
        obtain rfl := List.length_eq_zero_iff.mp (Nat.le_zero.mp hlength)
        cases hleads
  | succ room ih =>
    cases start with
    | none =>
      constructor
      · intro h
        cases h
        exact ⟨[], rfl, Nat.zero_le _, rfl⟩
      · rintro ⟨children, hleads, -, rfl⟩
        cases children with
        | nil => rfl
        | cons a children => cases hleads.1
    | some child =>
      rw [countSiblings, ih]
      constructor
      · rintro ⟨children, hleads, hlength, rfl⟩
        refine ⟨child :: children, ⟨rfl, hleads⟩, Nat.succ_le_succ hlength, ?_⟩
        rw [List.length_cons]
        omega
      · rintro ⟨children, hleads, hlength, rfl⟩
        cases children with
        | nil => cases hleads
        | cons a children =>
          obtain rfl := Option.some.inj hleads.1
          refine ⟨children, hleads.2, Nat.le_of_succ_le_succ hlength, ?_⟩
          rw [List.length_cons]
          omega

theorem directChildrenCount_eq_ok {total : Nat} :
    g.directChildrenCount p = .ok total ↔
      ∃ children, Leads g.nextSibling (g.firstChild p) children none ∧
        children.length ≤ 10000 ∧ total = children.length := by
  rw [directChildrenCount, countSiblings_eq_ok]
  simp only [Nat.zero_add]

theorem exists_directChildrenCount : (∃ total, g.directChildrenCount p = .ok total) ↔ g.Counted p := by
  constructor
  · intro ⟨total, htotal⟩
    obtain ⟨children, hleads, hlength, -⟩ := directChildrenCount_eq_ok.mp htotal
    exact ⟨children, hleads, hlength⟩
  · intro ⟨children, hleads, hlength⟩
    exact ⟨children.length, directChildrenCount_eq_ok.mpr ⟨children, hleads, hlength, rfl⟩⟩

end Mast.NodeGraph
