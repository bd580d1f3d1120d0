import Mathlib.Data.List.Nodup
import Mathlib.Logic.Function.Basic
import Mathlib.Logic.Relation
import Mathlib.Order.WellFounded

/-!
# Trees of sibling links

Each node has a link to its first child and one to its next sibling. `Leads` follows the siblings; `Hierarchy` is what makes the lists of children a forest.
-/

namespace SiblingLists

variable {α : Type*} {next next' : α → Option α} {start stop middle : Option α} {l r : List α}
  {a b n p q : α}

/-- Following `next` from `start` passes the nodes of a list and arrives at `stop`. -/
def Leads (next : α → Option α) : Option α → List α → Option α → Prop
  | start, [], stop => start = stop
  | start, a :: rest, stop => start = some a ∧ Leads next (next a) rest stop

@[simp] theorem leads_nil : Leads next start [] stop ↔ start = stop := Iff.rfl

@[simp] theorem leads_cons :
    Leads next start (a :: l) stop ↔ start = some a ∧ Leads next (next a) l stop := Iff.rfl

theorem leads_append :
    Leads next start (l ++ r) stop ↔ ∃ middle, Leads next start l middle ∧ Leads next middle r stop := by
  induction l generalizing start with
  | nil => simp
  | cons a l ih => simp [ih, and_assoc]

theorem Leads.start_some (hleads : Leads next start (l ++ a :: r) stop) : ∃ b, start = some b := by
  cases l with
  | nil => exact ⟨a, hleads.1⟩
  | cons b l => exact ⟨b, hleads.1⟩

theorem Leads.congr (hleads : Leads next start l stop) (hsame : ∀ a ∈ l, next' a = next a) :
    Leads next' start l stop := by
  induction l generalizing start with
  | nil => exact hleads
  | cons a l ih =>
    refine ⟨hleads.1, ?_⟩
    rw [hsame a List.mem_cons_self]
    exact ih hleads.2 fun b hb => hsame b (List.mem_cons_of_mem _ hb)

theorem Leads.unique (hl : Leads next start l none) (hr : Leads next start r none) : l = r := by
  induction l generalizing start r with
  | nil =>
    cases r with
    | nil => rfl
    | cons b r => cases hl.symm.trans hr.1
  | cons a l ih =>
    cases r with
    | nil => cases hr.symm.trans hl.1
    | cons b r =>
      obtain rfl := Option.some.inj (hl.1.symm.trans hr.1)
      rw [ih hl.2 hr.2]

theorem Leads.nodup (hleads : Leads next start l none) : l.Nodup := by
  induction l generalizing start with
  | nil => exact List.nodup_nil
  | cons a l ih =>
    refine List.nodup_cons.mpr ⟨fun hmem => ?_, ih hleads.2⟩
    obtain ⟨before, after, rfl⟩ := List.append_of_mem hmem
    obtain ⟨middle, -, hagain⟩ := leads_append.mp hleads.2
    have hsame := congrArg List.length (Leads.unique hleads.2 hagain.2)
    simp at hsame
    omega

theorem Leads.next_last (hleads : Leads next start (l ++ [b]) stop) : next b = stop := by
  obtain ⟨middle, -, -, hlast⟩ := leads_append.mp hleads
  exact hlast

theorem Leads.update_last [DecidableEq α] (hleads : Leads next start (l ++ [b]) stop) (hb : b ∉ l) :
    Leads (Function.update next b middle) start (l ++ [b]) middle := by
  obtain ⟨link, hl, hlast, -⟩ := leads_append.mp hleads
  refine leads_append.mpr ⟨link, hl.congr fun a ha => ?_, hlast, ?_⟩
  · exact Function.update_of_ne (ne_of_mem_of_not_mem ha hb) _ _
  · exact Function.update_self _ _ _

/-- Links that are not followed do not matter. -/
theorem Leads.update [DecidableEq α] (hleads : Leads next start l stop) (hb : b ∉ l) :
    Leads (Function.update next b middle) start l stop :=
  hleads.congr fun _ ha => Function.update_of_ne (ne_of_mem_of_not_mem ha hb) _ _

/-! ### Forests -/

variable {children children' : α → List α}

/-- No node has two parents or is below itself. -/
structure Hierarchy (children : α → List α) : Prop where
  oneParent : ∀ {p q n}, n ∈ children p → n ∈ children q → p = q
  wellFounded : WellFounded fun child parent => child ∈ children parent

/-- The nodes of the subtree of a node, itself included. -/
def InSubtree (children : α → List α) (node : α) : α → Prop :=
  Relation.ReflTransGen (fun parent child => child ∈ children parent) node

theorem Hierarchy.mono (hchildren : Hierarchy children)
    (hless : ∀ p, ∀ n ∈ children' p, n ∈ children p) : Hierarchy children' where
  oneParent hp hq := hchildren.oneParent (hless _ _ hp) (hless _ _ hq)
  wellFounded := Subrelation.wf (hless _ _) hchildren.wellFounded

theorem inSubtree_iff (hne : a ≠ p) :
    InSubtree children a p ↔ ∃ c ∈ children a, InSubtree children c p := by
  constructor
  · intro hbelow
    rcases hbelow.cases_head with hsame | ⟨c, hc, hrest⟩
    · exact absurd hsame hne
    · exact ⟨c, hc, hrest⟩
  · intro ⟨c, hc, hrest⟩
    exact hrest.head hc

/-- A node without parent becomes a child of a node outside its subtree. -/
theorem Hierarchy.attach [DecidableEq α] (hchildren : Hierarchy children)
    (hfree : ∀ p, n ∉ children p) (houtside : ¬InSubtree children n q)
    (hl : ∀ a, a ∈ l ↔ a = n ∨ a ∈ children q) : Hierarchy (Function.update children q l) := by
  have hmem {a p : α} : a ∈ Function.update children q l p ↔
      a ∈ children p ∨ a = n ∧ p = q := by
    by_cases hp : p = q
    · subst hp
      simp [hl, or_comm]
    · simp [hp]
  have hsubtree (a : α) (ha : InSubtree children n a) :
      Acc (fun child parent => child ∈ Function.update children q l parent) a := by
    induction a using hchildren.wellFounded.induction with
    | _ a ih =>
      refine Acc.intro a fun child hchild => ?_
      rcases hmem.mp hchild with hold | ⟨-, rfl⟩
      · exact ih child hold (ha.tail hold)
      · exact absurd ha houtside
  refine ⟨fun {p p' a} hp hp' => ?_, ⟨fun a => ?_⟩⟩
  · rcases hmem.mp hp with hold | ⟨rfl, rfl⟩
    · rcases hmem.mp hp' with hold' | ⟨rfl, -⟩
      · exact hchildren.oneParent hold hold'
      · exact absurd hold (hfree p)
    · rcases hmem.mp hp' with hold' | ⟨-, rfl⟩
      · exact absurd hold' (hfree p')
      · rfl
  · induction a using hchildren.wellFounded.induction with
    | _ a ih =>
      refine Acc.intro a fun child hchild => ?_
      rcases hmem.mp hchild with hold | ⟨rfl, -⟩
      · exact ih child hold
      · exact hsubtree child Relation.ReflTransGen.refl

end SiblingLists
