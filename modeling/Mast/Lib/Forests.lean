import Mathlib.Data.List.Nodup
import Mathlib.Data.List.Perm.Basic

/-!
# Ordered forests

A forest in the form of first inner tree and next sibling, and what it means that a table of children unfolds to it: the table then has the children of every branch in their order. Two forests that one table unfolds to from the same nodes are equal.
-/

namespace Forests

variable {α : Type*}

inductive Forest (α : Type*)
  | nil
  | leaf (a : α) (rest : Forest α)
  | branch (a : α) (inner rest : Forest α)

namespace Forest

def heads : Forest α → List α
  | nil => []
  | leaf a rest => a :: rest.heads
  | branch a _ rest => a :: rest.heads

def leaves : Forest α → List α
  | nil => []
  | leaf a rest => a :: rest.leaves
  | branch _ inner rest => inner.leaves ++ rest.leaves

def branches : Forest α → List α
  | nil => []
  | leaf _ rest => rest.branches
  | branch a inner rest => a :: (inner.branches ++ rest.branches)

def append : Forest α → Forest α → Forest α
  | nil, g => g
  | leaf a rest, g => leaf a (rest.append g)
  | branch a inner rest, g => branch a inner (rest.append g)

instance : Append (Forest α) := ⟨append⟩

section

variable (f g : Forest α) (a : α) (inner rest : Forest α)

@[simp] theorem heads_nil : (nil : Forest α).heads = [] := rfl

@[simp] theorem heads_leaf : (leaf a rest).heads = a :: rest.heads := rfl

@[simp] theorem heads_branch : (branch a inner rest).heads = a :: rest.heads := rfl

@[simp] theorem leaves_nil : (nil : Forest α).leaves = [] := rfl

@[simp] theorem leaves_leaf : (leaf a rest).leaves = a :: rest.leaves := rfl

@[simp] theorem leaves_branch : (branch a inner rest).leaves = inner.leaves ++ rest.leaves := rfl

@[simp] theorem branches_nil : (nil : Forest α).branches = [] := rfl

@[simp] theorem branches_leaf : (leaf a rest).branches = rest.branches := rfl

@[simp] theorem branches_branch :
    (branch a inner rest).branches = a :: (inner.branches ++ rest.branches) := rfl

@[simp] theorem nil_append : nil ++ g = g := rfl

@[simp] theorem leaf_append : leaf a rest ++ g = leaf a (rest ++ g) := rfl

@[simp] theorem branch_append : branch a inner rest ++ g = branch a inner (rest ++ g) := rfl

@[simp] theorem append_nil : f ++ nil = f := by
  induction f with
  | nil => rfl
  | leaf a rest ih => rw [leaf_append, ih]
  | branch a inner rest _ ih => rw [branch_append, ih]

@[simp] theorem heads_append : (f ++ g).heads = f.heads ++ g.heads := by
  induction f with
  | nil => rfl
  | leaf a rest ih => simp [ih]
  | branch a inner rest _ ih => simp [ih]

@[simp] theorem leaves_append : (f ++ g).leaves = f.leaves ++ g.leaves := by
  induction f with
  | nil => rfl
  | leaf a rest ih => simp [ih]
  | branch a inner rest _ ih => simp [ih]

@[simp] theorem branches_append : (f ++ g).branches = f.branches ++ g.branches := by
  induction f with
  | nil => rfl
  | leaf a rest ih => simp [ih]
  | branch a inner rest _ ih => simp [ih]

end

/-! ### Tables of children -/

/-- The table has the children of every branch, and the leaves are those that are one by kind. -/
def Unfolds (isLeaf : α → Bool) (children : α → List α) : Forest α → Prop
  | nil => True
  | leaf a rest => isLeaf a = true ∧ rest.Unfolds isLeaf children
  | branch a inner rest => isLeaf a = false ∧ children a = inner.heads ∧
      inner.Unfolds isLeaf children ∧ rest.Unfolds isLeaf children

variable {isLeaf : α → Bool} {children children' : α → List α} {f g : Forest α}

@[simp] theorem unfolds_append :
    (f ++ g).Unfolds isLeaf children ↔ f.Unfolds isLeaf children ∧ g.Unfolds isLeaf children := by
  induction f with
  | nil => simp [Unfolds]
  | leaf a rest ih => simp [Unfolds, ih, and_assoc]
  | branch a inner rest _ ih => simp [Unfolds, ih, and_assoc]

/-- Only the children of the branches matter. -/
theorem Unfolds.congr (hunfolds : f.Unfolds isLeaf children)
    (hsame : ∀ a ∈ f.branches, children' a = children a) : f.Unfolds isLeaf children' := by
  induction f with
  | nil => trivial
  | leaf a rest ih => exact ⟨hunfolds.1, ih hunfolds.2 hsame⟩
  | branch a inner rest ihinner ih =>
    obtain ⟨hkind, hchildren, hinner, hrest⟩ := hunfolds
    simp only [branches_branch, List.forall_mem_cons, List.forall_mem_append] at hsame
    obtain ⟨ha, hinnerSame, hrestSame⟩ := hsame
    exact ⟨hkind, ha.trans hchildren, ihinner hinner hinnerSame, ih hrest hrestSame⟩

theorem Unfolds.unique (hf : f.Unfolds isLeaf children) (hg : g.Unfolds isLeaf children)
    (hheads : f.heads = g.heads) : f = g := by
  induction f generalizing g with
  | nil =>
    cases g with
    | nil => rfl
    | leaf b rest => cases hheads
    | branch b inner rest => cases hheads
  | leaf a rest ih =>
    cases g with
    | nil => cases hheads
    | leaf b rest' =>
      obtain ⟨rfl, hrest⟩ := List.cons.inj hheads
      rw [ih hf.2 hg.2 hrest]
    | branch b inner rest' =>
      obtain ⟨rfl, -⟩ := List.cons.inj hheads
      cases hf.1.symm.trans hg.1
  | branch a inner rest ihinner ih =>
    cases g with
    | nil => cases hheads
    | leaf b rest' =>
      obtain ⟨rfl, -⟩ := List.cons.inj hheads
      cases hf.1.symm.trans hg.1
    | branch b inner' rest' =>
      obtain ⟨rfl, hrest⟩ := List.cons.inj hheads
      obtain ⟨-, hchildren, hinner, hf⟩ := hf
      obtain ⟨-, hchildren', hinner', hg⟩ := hg
      rw [ihinner hinner hinner' (hchildren.symm.trans hchildren'), ih hf hg hrest]

/-! ### Insertion -/

variable [DecidableEq α]

/-- A forest in front of what a branch contains. -/
def insertAt : Forest α → α → Forest α → Forest α
  | nil, _, _ => nil
  | leaf a rest, p, g => leaf a (rest.insertAt p g)
  | branch a inner rest, p, g =>
    branch a (if a = p then g ++ inner.insertAt p g else inner.insertAt p g) (rest.insertAt p g)

variable {p : α}

@[simp] theorem heads_insertAt (p : α) (f g : Forest α) : (f.insertAt p g).heads = f.heads := by
  induction f with
  | nil => rfl
  | leaf a rest ih => simp [insertAt, ih]
  | branch a inner rest _ ih => simp [insertAt, ih]

@[simp] theorem insertAt_append (p : α) (f f' g : Forest α) :
    (f ++ f').insertAt p g = f.insertAt p g ++ f'.insertAt p g := by
  induction f with
  | nil => rfl
  | leaf a rest ih => simp [insertAt, ih]
  | branch a inner rest _ ih => simp [insertAt, ih]

theorem insertAt_of_notMem (g : Forest α) (hp : p ∉ f.branches) : f.insertAt p g = f := by
  induction f with
  | nil => rfl
  | leaf a rest ih => rw [insertAt, ih hp]
  | branch a inner rest ihinner ih =>
    simp only [branches_branch, List.mem_cons, List.mem_append, not_or] at hp
    rw [insertAt, if_neg (Ne.symm hp.1), ihinner hp.2.1, ih hp.2.2]

/-- Where the branches are distinct, the forest is inserted once. -/
theorem insertAt_perm (g : Forest α) (hp : p ∈ f.branches) (hnodup : f.branches.Nodup) :
    (f.insertAt p g).branches.Perm (g.branches ++ f.branches) ∧
      (f.insertAt p g).leaves.Perm (g.leaves ++ f.leaves) := by
  induction f with
  | nil => cases hp
  | leaf a rest ih =>
    obtain ⟨hbranches, hleaves⟩ := ih hp hnodup
    refine ⟨hbranches, ?_⟩
    rw [insertAt, leaves_leaf, leaves_leaf]
    exact (hleaves.cons a).trans List.perm_middle.symm
  | branch a inner rest ihinner ih =>
    simp only [branches_branch, List.nodup_cons, List.mem_append, not_or] at hnodup
    obtain ⟨⟨hinner, hrest⟩, hboth⟩ := hnodup
    obtain ⟨hnodupInner, hnodupRest, hdisjoint⟩ := List.nodup_append.mp hboth
    by_cases ha : a = p
    · subst ha
      rw [insertAt, if_pos rfl, insertAt_of_notMem g hinner, insertAt_of_notMem g hrest]
      simp only [branches_branch, leaves_branch, branches_append, leaves_append, List.append_assoc]
      exact ⟨List.perm_middle.symm, List.Perm.refl _⟩
    · rw [insertAt, if_neg ha]
      simp only [branches_branch, List.mem_cons, List.mem_append, Ne.symm ha, false_or] at hp
      by_cases hmem : p ∈ inner.branches
      · have hnot : p ∉ rest.branches := fun hin => hdisjoint p hmem p hin rfl
        obtain ⟨hbranches, hleaves⟩ := ihinner hmem hnodupInner
        rw [insertAt_of_notMem g hnot]
        simp only [branches_branch, leaves_branch]
        constructor
        · refine ((hbranches.append_right _).cons a).trans ?_
          rw [List.append_assoc]
          exact List.perm_middle.symm
        · rw [← List.append_assoc]
          exact hleaves.append_right _
      · obtain ⟨hbranches, hleaves⟩ := ih (hp.resolve_left hmem) hnodupRest
        rw [insertAt_of_notMem g hmem]
        simp only [branches_branch, leaves_branch]
        constructor
        · refine ((hbranches.append_left _).cons a).trans ?_
          refine (List.Perm.cons a ?_).trans List.perm_middle.symm
          rw [← List.append_assoc, ← List.append_assoc]
          exact List.perm_append_comm.append_right _
        · refine (hleaves.append_left _).trans ?_
          rw [← List.append_assoc, ← List.append_assoc]
          exact List.perm_append_comm.append_right _

theorem Unfolds.insertAt {children' : α → List α} (hf : f.Unfolds isLeaf children)
    (hg : g.Unfolds isLeaf children') (hp : children' p = g.heads ++ children p)
    (hsame : ∀ a ∈ f.branches, a ≠ p → children' a = children a) :
    (f.insertAt p g).Unfolds isLeaf children' := by
  induction f with
  | nil => trivial
  | leaf a rest ih => exact ⟨hf.1, ih hf.2 hsame⟩
  | branch a inner rest ihinner ih =>
    obtain ⟨hkind, hchildren, hinner, hrest⟩ := hf
    simp only [branches_branch, List.forall_mem_cons, List.forall_mem_append] at hsame
    obtain ⟨ha, hsameInner, hsameRest⟩ := hsame
    refine ⟨hkind, ?_, ?_, ih hrest hsameRest⟩
    · split
      · rename_i heq
        rw [heq, hp, ← heq, hchildren, heads_append, heads_insertAt]
      · rename_i hne
        rw [ha hne, hchildren, heads_insertAt]
    · split
      · exact unfolds_append.mpr ⟨hg, ihinner hinner hsameInner⟩
      · exact ihinner hinner hsameInner

end Forest

end Forests
